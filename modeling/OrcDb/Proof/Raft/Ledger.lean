import OrcDb.Raft.Link
import OrcDb.Proof.Raft.Peer
import OrcDb.Proof.Raft.RpcServer

/-!
# The frames of a connection

The invariant of a link is a ledger of its frames: those sent and not yet handled, those
handled with their responses, and the responses not yet received. What is under way in each
direction, the reader's buffer in front of it and what a broken connection has swallowed behind
it, is the concatenation of the frames of one column (`Streams`). Lost frames stay in their
column; they are never read.

This module has the ledger and the steps of the client that do not read.
-/

set_option autoImplicit false

namespace OrcDb
namespace Proof

open Lib
open RaftRpcServer (Conn returned dispatch)

instance (f : RpcFrame) : Decidable (Framable f) := inferInstanceAs (Decidable (_ < _))

/-- The length of the response's frame is a `uint32_t`. -/
def ResponseFits (J : Json.Codec) (node : RaftNode) : Read RpcFrame → Prop
  | .item req _ => ∀ out ∈ dispatch J node req, ∀ f ∈ out.2, Framable f
  | .more => True
  | .bad => True

instance (J : Json.Codec) (node : RaftNode) :
    (r : Read RpcFrame) → Decidable (ResponseFits J node r)
  | .item req _ =>
      inferInstanceAs (Decidable (∀ out ∈ dispatch J node req, ∀ f ∈ out.2, Framable f))
  | .more => .isTrue trivial
  | .bad => .isTrue trivial

/-- Fewer calls than there are sequence numbers, and frames whose length is a `uint32_t`. -/
def LinkFits (J : Json.Codec) (l : RpcLink) : LinkEvent → Prop
  | .call m => l.requests.length < 2 ^ 32 ∧
      ∀ f ∈ m.frame J (UInt32.ofNat l.requests.length), Framable f
  | .handle _ => ResponseFits J l.conn.node (RpcFrame.decode l.conn.buf)
  | _ => True

instance (J : Json.Codec) (l : RpcLink) : (ev : LinkEvent) → Decidable (LinkFits J l ev)
  | .call _ => inferInstanceAs (Decidable (_ ∧ ∀ f ∈ _, Framable f))
  | .handle _ => inferInstanceAs (Decidable (ResponseFits J _ _))
  | .construct _ | .connect _ _ | .spawn _ | .check _ | .send _ _ | .loop | .recv _ | .again
  | .lost | .wait _ _ | .arrive _ | .hangUp | .other _ => .isTrue trivial

abbrev LinkRun (J : Json.Codec) : RpcLink → List (RpcLink × LinkEvent) → RpcLink → Prop :=
  Runs (RpcLink.step J) (LinkFits J)

variable {J : Json.Codec} {l l' : RpcLink} {k : Nat} {m m' : RpcMessage} {f q : RpcFrame}

/-! ## Messages and frames -/

theorem eq_of_returned {node node' : RaftNode} {out : RaftNode × Option RpcFrame}
    (h : returned J node node' f = some out) : out = (node', some f) := by
  unfold returned at h
  split at h
  · exact (Option.some.inj h).symm
  · exact absurd h (by simp)

/-- The handler's view of a request's frame, where it comes to its end. -/
theorem dispatch_frame {node : RaftNode} {seq : UInt32} {out : RaftNode × Option RpcFrame}
    (hm : m.isRequest = true) (hf : m.frame J seq = some f) (hout : dispatch J node f = some out) :
    ∃ node' m' f', node.answer J m = some (node', m') ∧ m'.frame J seq = some f' ∧
      out = (node', some f') := by
  obtain ⟨text, htext, rfl⟩ := Option.map_eq_some_iff.mp hf
  cases m with
  | appendEntriesReq r =>
    simp only [RpcMessage.serialize, serialize_request, Option.some.injEq] at htext
    subst htext
    simp only [dispatch, RpcMessage.type, ofBytes?_toBytes, Option.bind_eq_bind, Option.bind_some,
      deserialize_request] at hout
    exact ⟨_, .appendEntriesResp (node.handleAppendEntries J r).2, _, rfl, rfl,
      eq_of_returned hout⟩
  | requestVoteReq r =>
    simp only [RpcMessage.serialize, Option.some.injEq] at htext
    subst htext
    simp only [dispatch, RpcMessage.type, ofBytes?_toBytes, Option.bind_eq_bind, Option.bind_some,
      deserialize_voteRequest] at hout
    exact ⟨_, .requestVoteResp (node.handleRequestVote r).2, _, rfl, rfl, eq_of_returned hout⟩
  | appendEntriesResp | requestVoteResp => exact absurd hm (by simp [RpcMessage.isRequest])

/-- The caller's view of the response's frame. -/
theorem readResponse_frame {node node' : RaftNode} {seq : UInt32}
    (hm : node.answer J m = some (node', m')) (hf : m'.frame J seq = some f) :
    m.readResponse J f.payload = .ok m' := by
  obtain ⟨text, htext, rfl⟩ := Option.map_eq_some_iff.mp hf
  cases m with
  | appendEntriesReq r =>
    simp only [RaftNode.answer, Option.some.injEq, Prod.mk.injEq] at hm
    obtain ⟨-, rfl⟩ := hm
    simp only [RpcMessage.serialize, Option.some.injEq] at htext
    subst htext
    simp [RpcMessage.readResponse, ofBytes?_toBytes, deserialize_response]
  | requestVoteReq r =>
    simp only [RaftNode.answer, Option.some.injEq, Prod.mk.injEq] at hm
    obtain ⟨-, rfl⟩ := hm
    simp only [RpcMessage.serialize, Option.some.injEq] at htext
    subst htext
    simp [RpcMessage.readResponse, ofBytes?_toBytes, deserialize_voteResponse]
  | appendEntriesResp | requestVoteResp => exact absurd hm (by simp [RaftNode.answer])

theorem frame_seq {seq : UInt32} (hf : m.frame J seq = some f) : f.seq = seq := by
  obtain ⟨_, -, rfl⟩ := Option.map_eq_some_iff.mp hf
  rfl

/-! ## The ledger -/

structure Ledger where
  /-- Sent and not handled. -/
  out : List (Nat × RpcFrame) := []
  /-- The end of what was sent, where it will not arrive. -/
  lostOut : Bytes := []
  /-- Handled: the number of the call, its request, the response. -/
  done : List (Nat × RpcFrame × RpcFrame) := []
  /-- Responses sent and not received. -/
  back : List (Nat × RpcFrame) := []
  lostBack : Bytes := []

/-- The bytes of a column. -/
def bytesOf (xs : List (Nat × RpcFrame)) : Bytes := ((xs.map Prod.snd).map frameBytes).flatten

theorem bytesOf_concat (xs : List (Nat × RpcFrame)) (x : Nat × RpcFrame) :
    bytesOf (xs ++ [x]) = bytesOf xs ++ frameBytes x.2 := by
  simp [bytesOf]

/-- `f` is the frame of call `k`. -/
def Asks (J : Json.Codec) (requests : List RpcMessage) (k : Nat) (f : RpcFrame) : Prop :=
  ∃ m, requests[k]? = some m ∧ m.isRequest = true ∧ m.frame J (UInt32.ofNat k) = some f ∧ Framable f

/-- `x` is a call with its request and the response the handler gives on `node`. -/
def Answered (J : Json.Codec) (requests : List RpcMessage) (node : RaftNode)
    (x : Nat × RpcFrame × RpcFrame) : Prop :=
  ∃ m m' node', requests[x.1]? = some m ∧ m.frame J (UInt32.ofNat x.1) = some x.2.1 ∧
    node.answer J m = some (node', m') ∧ m'.frame J (UInt32.ofNat x.1) = some x.2.2 ∧
    Framable x.2.2

section

variable {requests requests' : List RpcMessage}

theorem getElem?_of_prefix {α : Type} {xs ys : List α} {x : α} (h : xs <+: ys)
    (hx : xs[k]? = some x) : ys[k]? = some x := by
  obtain ⟨zs, rfl⟩ := h
  rw [List.getElem?_append_left (List.getElem?_eq_some_iff.mp hx).1]
  exact hx

theorem Asks.mono (h : Asks J requests k f) (hr : requests <+: requests') :
    Asks J requests' k f := by
  obtain ⟨m, hm, rest⟩ := h
  exact ⟨m, getElem?_of_prefix hr hm, rest⟩

theorem Asks.lt (h : Asks J requests k f) : k < requests.length := by
  obtain ⟨m, hm, -⟩ := h
  exact (List.getElem?_eq_some_iff.mp hm).1

theorem Answered.mono {node : RaftNode} {x : Nat × RpcFrame × RpcFrame}
    (h : Answered J requests node x) (hr : requests <+: requests') :
    Answered J requests' node x := by
  obtain ⟨m, m', node', hm, rest⟩ := h
  exact ⟨m, m', node', getElem?_of_prefix hr hm, rest⟩

theorem Answered.lt {node : RaftNode} {x : Nat × RpcFrame × RpcFrame}
    (h : Answered J requests node x) : x.1 < requests.length := by
  obtain ⟨m, m', node', hm, -⟩ := h
  exact (List.getElem?_eq_some_iff.mp hm).1

end

/-- The numbers of the calls and the keys they are known by. -/
structure Numbering (J : Json.Codec) (l : RpcLink) : Prop where
  few : l.requests.length ≤ 2 ^ 32
  frames : ∀ k < l.requests.length, ∃ f, Asks J l.requests k f
  seqGen : l.peer.seqGen = UInt32.ofNat l.requests.length
  calls : l.peer.calls.map PeerCall.seq = l.callers.map UInt32.ofNat
  callers : ∀ k ∈ l.callers, k < l.requests.length
  pending : ∀ seq ∈ l.peer.pending,
    l.owner seq < l.requests.length ∧ UInt32.ofNat (l.owner seq) = seq

/-- What is under way. -/
structure Streams (l : RpcLink) (g : Ledger) : Prop where
  toServer : l.conn.buf ++ l.toServer ++ g.lostOut = bytesOf g.out
  lostOut : g.lostOut = [] ∨ l.opened = true ∧ l.peer.sockfd = none
  opened : l.peer.sockfd.isSome = true → l.opened = true
  unopened : l.peer.constructed = false → l.opened = false ∧ l.peer.calls = []
  reading : ∀ t, l.peer.recvLoop = some t → t.buf ++ l.toPeer ++ g.lostBack = bytesOf g.back
  unread : l.peer.recvThread = false →
    l.peer.recvLoop = none ∧ l.toPeer ++ g.lostBack = bytesOf g.back
  lostBack : g.lostBack = [] ∨ l.severed = true

/-- The columns. A call is in one of them, or has not been sent. -/
structure Books (J : Json.Codec) (l : RpcLink) (g : Ledger) : Prop where
  out : ∀ x ∈ g.out, Asks J l.requests x.1 x.2
  done : ∀ x ∈ g.done, ∃ node, Answered J l.requests node x
  handled : l.conn.handled = g.done.map fun x => (x.2.1, some x.2.2)
  back : ∀ x ∈ g.back, ∃ q, (x.1, q, x.2) ∈ g.done
  apart : (l.callers ++ (g.out.map Prod.fst ++ g.done.map Prod.fst)).Nodup

/-- Values come from responses. -/
structure Promises (J : Json.Codec) (l : RpcLink) (g : Ledger) : Prop where
  inner : ∀ k payload, l.inner k = some (.ok payload) →
    ∃ q f, (k, q, f) ∈ g.done ∧ f.payload = payload
  outcome : ∀ k m, l.outcome k = some (.ok m) →
    ∃ q f, (k, q, f) ∈ g.done ∧ RpcMessage.ofFrame J f = some m

structure LinkOk (J : Json.Codec) (l : RpcLink) (g : Ledger) : Prop where
  numbering : Numbering J l
  streams : Streams l g
  books : Books J l g
  promises : Promises J l g

theorem linkOk_init (J : Json.Codec) (node : RaftNode) : LinkOk J { conn := { node } } {} where
  numbering := ⟨Nat.zero_le _, fun _ h => absurd h (by simp), rfl, rfl,
    fun _ h => absurd h (by simp), fun _ h => absurd h (by simp)⟩
  streams := ⟨rfl, .inl rfl, fun h => absurd h (by simp), fun _ => ⟨rfl, rfl⟩,
    fun _ h => absurd h (by simp), fun _ => ⟨rfl, rfl⟩, .inl rfl⟩
  books := ⟨fun _ h => absurd h (by simp), fun _ h => absurd h (by simp), rfl,
    fun _ h => absurd h (by simp), List.nodup_nil⟩
  promises := ⟨fun _ _ h => absurd h (by simp), fun _ _ h => absurd h (by simp)⟩

/-! ## The control flow of the client -/

section Control

variable {p p' : RaftPeer} {caller : Nat} {c : PeerCall} {phase : CallPhase} {g : Ledger}

theorem callIn_eq (h : p.callIn caller phase = some c) : p.calls[caller]? = some c := by
  unfold RaftPeer.callIn at h
  exact (Option.filter_eq_some_iff.mp h).1

theorem setPhase_seqs (h : p.callIn caller phase = some c) (phase' : CallPhase) :
    (p.setPhase caller c phase').calls.map PeerCall.seq = p.calls.map PeerCall.seq := by
  have hc := callIn_eq h
  obtain ⟨hlt, hget⟩ := List.getElem?_eq_some_iff.mp hc
  show (p.calls.set caller { c with phase := phase' }).map PeerCall.seq = _
  rw [List.map_set]
  apply List.ext_getElem?
  intro n
  rw [List.getElem?_set]
  split
  · rename_i hn
    subst hn
    simp [hlt, hget]
  · rfl

/-- The step leaves the keys alone. -/
structure SameKeys (p p' : RaftPeer) : Prop where
  seqGen : p'.seqGen = p.seqGen
  calls : p'.calls.map PeerCall.seq = p.calls.map PeerCall.seq
  pending : p'.pending = p.pending

theorem Numbering.control (h : Numbering J l) (hk : SameKeys l.peer p') (o : Bool) :
    Numbering J { l with peer := p', opened := o } where
  few := h.few
  frames := h.frames
  seqGen := hk.seqGen.trans h.seqGen
  calls := hk.calls.trans h.calls
  callers := h.callers
  pending := by
    show ∀ seq ∈ p'.pending, _
    rw [hk.pending]
    exact h.pending

theorem startRecv_keys (p : RaftPeer) : SameKeys p p.startRecv := by
  unfold RaftPeer.startRecv
  split
  · exact ⟨rfl, rfl, rfl⟩
  · exact ⟨rfl, rfl, rfl⟩

theorem SameKeys.trans {p₁ p₂ p₃ : RaftPeer} (h : SameKeys p₁ p₂) (h' : SameKeys p₂ p₃) :
    SameKeys p₁ p₃ :=
  ⟨h'.seqGen.trans h.seqGen, h'.calls.trans h.calls, h'.pending.trans h.pending⟩

theorem setPhase_keys (h : p.callIn caller phase = some c) (phase' : CallPhase) :
    SameKeys p (p.setPhase caller c phase') :=
  ⟨rfl, setPhase_seqs h phase', rfl⟩

theorem Streams.startRecv {o : Bool} (h : Streams { l with peer := p, opened := o } g) :
    Streams { l with peer := p.startRecv, opened := o } g := by
  unfold RaftPeer.startRecv
  split
  · exact { h with }
  · rename_i hthread
    rw [Bool.not_eq_true] at hthread
    refine { h with reading := fun t ht => ?_, unread := fun hf => absurd hf (by simp) }
    obtain rfl := Option.some.inj ht
    exact (h.unread hthread).2

/-! ### What the steps of the client do -/

theorem step_alive {ev : PeerEvent} (h : p.step ev = some p') : ¬ p.terminated = true := by
  rw [Bool.not_eq_true]
  exact (step_recvThread h).1

theorem step_construct {fd : Option Nat} (h : p.step (.construct fd) = some p') :
    p.constructed = false ∧ (fd = none → p' = { p with constructed := true }) ∧
      ∀ x, fd = some x → p' =
        RaftPeer.startRecv { p with constructed := true, sockfd := some x, connected := true } := by
  have halive := step_alive h
  unfold RaftPeer.step at h
  rw [if_neg halive] at h
  dsimp only at h
  split at h
  · exact absurd h (by simp)
  · rename_i hc
    rw [Bool.not_eq_true] at hc
    refine ⟨hc, ?_, ?_⟩
    · rintro rfl
      exact (Option.some.inj h).symm
    · rintro x rfl
      exact (Option.some.inj h).symm

theorem step_call (h : p.step .call = some p') :
    p.constructed = true ∧ p' = { p with
      seqGen := p.seqGen + 1
      calls := p.calls ++
        [{ seq := p.seqGen, phase := if p.connected then .checking else .connecting }] } := by
  have halive := step_alive h
  unfold RaftPeer.step at h
  rw [if_neg halive] at h
  dsimp only at h
  split at h
  · rename_i hc
    exact ⟨hc, (Option.some.inj h).symm⟩
  · exact absurd h (by simp)

theorem step_connect {fd : Option Nat} (h : p.step (.connect caller fd) = some p') :
    ∃ c, p.callIn caller .connecting = some c ∧
      (fd = none → p' = p.setPhase caller c .checking) ∧
      ∀ x, fd = some x → p' =
        { p with sockfd := some x, connected := true }.setPhase caller c .spawning := by
  have halive := step_alive h
  unfold RaftPeer.step at h
  rw [if_neg halive] at h
  obtain ⟨c, hc, rfl⟩ := Option.map_eq_some_iff.mp h
  refine ⟨c, hc, ?_, ?_⟩
  · rintro rfl
    rfl
  · rintro x rfl
    rfl

theorem step_spawn (h : p.step (.spawn caller) = some p') :
    ∃ c, p.callIn caller .spawning = some c ∧ p' = (p.setPhase caller c .checking).startRecv := by
  have halive := step_alive h
  unfold RaftPeer.step at h
  rw [if_neg halive] at h
  obtain ⟨c, hc, rfl⟩ := Option.map_eq_some_iff.mp h
  exact ⟨c, hc, rfl⟩

theorem step_check (h : p.step (.check caller) = some p') :
    ∃ c, p.callIn caller .checking = some c ∧ p' = if p.connected then
      { p with pending := c.seq :: p.pending.erase c.seq }.setPhase caller c .sending
      else p.finish caller := by
  have halive := step_alive h
  unfold RaftPeer.step at h
  rw [if_neg halive] at h
  obtain ⟨c, hc, rfl⟩ := Option.map_eq_some_iff.mp h
  exact ⟨c, hc, rfl⟩

theorem step_send {ok : Bool} (h : p.step (.send caller ok) = some p') :
    ∃ c, p.callIn caller .sending = some c ∧
      (p.sockfd.isSome = true → ok = true → p' = p.finish caller) ∧
      (p.sockfd.isSome = true → ok = false → p' = p.disconnect.finish caller) ∧
      (p.sockfd = none →
        p' = RaftPeer.finish { p with pending := p.pending.erase c.seq } caller) := by
  have halive := step_alive h
  unfold RaftPeer.step at h
  rw [if_neg halive] at h
  obtain ⟨c, hc, rfl⟩ := Option.map_eq_some_iff.mp h
  refine ⟨c, hc, ?_, ?_, ?_⟩
  · intro hs hok
    rw [if_pos (by rw [hs, hok]; rfl)]
  · intro hs hok
    rw [if_neg (by rw [hok]; simp), if_pos hs]
    rfl
  · intro hs
    rw [if_neg (by rw [hs]; simp), if_neg (by rw [hs]; simp)]

theorem step_loop (h : p.step .loop = some p') :
    ∃ t, p.recvLoop = some t ∧
      p' = { p with
        recvLoop := if p.recvRunning && p.connected then some ⟨true, t.buf⟩ else none } := by
  have halive := step_alive h
  unfold RaftPeer.step at h
  rw [if_neg halive] at h
  cases ht : p.recvLoop with
  | none => simp [ht] at h
  | some t =>
    obtain ⟨inRecv, buf⟩ := t
    refine ⟨_, rfl, ?_⟩
    cases inRecv with
    | true => simp [ht] at h
    | false =>
      simp only [ht] at h
      split at h
      · rename_i hc
        rw [if_pos hc]
        exact (Option.some.inj h).symm
      · rename_i hc
        rw [if_neg hc]
        exact (Option.some.inj h).symm

theorem step_data {chunk : Bytes} (h : p.step (.recv (.data chunk)) = some p') :
    ∃ t out, p.recvLoop = some t ∧ feed RpcFrame.decode ([], t.buf) chunk = some out ∧
      p' = { p with
        recvLoop := some { inRecv := false, buf := out.2 }
        pending := out.1.foldl (fun pending f => pending.erase f.seq) p.pending } := by
  have halive := step_alive h
  unfold RaftPeer.step at h
  rw [if_neg halive] at h
  cases ht : p.recvLoop with
  | none => simp [ht] at h
  | some t =>
    obtain ⟨inRecv, buf⟩ := t
    cases inRecv with
    | false => simp [ht] at h
    | true =>
      simp only [ht] at h
      obtain ⟨out, hout, rfl⟩ := Option.map_eq_some_iff.mp h
      exact ⟨_, out, rfl, hout, rfl⟩

theorem step_again (h : p.step (.recv .again) = some p') :
    ∃ t, p.recvLoop = some t ∧ p' = { p with recvLoop := some { t with inRecv := false } } := by
  have halive := step_alive h
  unfold RaftPeer.step at h
  rw [if_neg halive] at h
  cases ht : p.recvLoop with
  | none => simp [ht] at h
  | some t =>
    obtain ⟨inRecv, buf⟩ := t
    cases inRecv with
    | false => simp [ht] at h
    | true =>
      simp only [ht] at h
      exact ⟨_, rfl, (Option.some.inj h).symm⟩

theorem step_closed (h : p.step (.recv .closed) = some p') :
    p' = { p.disconnect with recvLoop := none } := by
  have halive := step_alive h
  unfold RaftPeer.step at h
  rw [if_neg halive] at h
  cases ht : p.recvLoop with
  | none => simp [ht] at h
  | some t =>
    obtain ⟨inRecv, buf⟩ := t
    cases inRecv with
    | false => simp [ht] at h
    | true =>
      simp only [ht] at h
      exact (Option.some.inj h).symm

/-! ### Opening and reading -/

theorem LinkOk.control (h : LinkOk J l g) {o : Bool} (hk : SameKeys l.peer p')
    (hs : Streams { l with peer := p', opened := o } g) :
    LinkOk J { l with peer := p', opened := o } g where
  numbering := h.numbering.control hk o
  streams := hs
  books := { h.books with }
  promises := { h.promises with }

theorem LinkOk.construct {ok : Bool} (h : LinkOk J l g) (hstep : l.construct ok = some l') :
    LinkOk J l' g := by
  obtain ⟨p', hp, rfl⟩ := Option.map_eq_some_iff.mp hstep
  obtain ⟨hnew, hno, hyes⟩ := step_construct hp
  have hs := h.streams
  obtain ⟨hshut, hcalls⟩ := hs.unopened hnew
  have hlost : g.lostOut = [] := hs.lostOut.resolve_right fun hc => by simp [hshut] at hc
  cases ok with
  | false =>
    rw [hno rfl]
    refine h.control ⟨rfl, rfl, rfl⟩ { hs with
      lostOut := .inl hlost
      opened := fun hsock => ?_
      unopened := fun hc => absurd hc (by simp) }
    have := hs.opened hsock
    simp [hshut] at this
  | true =>
    rw [hyes 0 rfl]
    have hkeys : SameKeys l.peer
        { l.peer with constructed := true, sockfd := some 0, connected := true } := ⟨rfl, rfl, rfl⟩
    refine h.control (hkeys.trans (startRecv_keys _)) (Streams.startRecv ?_)
    exact { hs with
      lostOut := .inl hlost
      opened := fun _ => rfl
      unopened := fun hc => absurd hc (by simp) }

theorem LinkOk.connect {ok : Bool} (h : LinkOk J l g) (hstep : l.connect caller ok = some l') :
    LinkOk J l' g := by
  unfold RpcLink.connect at hstep
  split at hstep
  · rename_i hmay
    obtain ⟨p', hp, rfl⟩ := Option.map_eq_some_iff.mp hstep
    obtain ⟨c, hc, hno, hyes⟩ := step_connect hp
    have hs := h.streams
    cases ok with
    | false =>
      rw [hno rfl]
      refine h.control (setPhase_keys hc _) { hs with
        lostOut := ?_, opened := fun hsock => ?_, unopened := fun hcon => ?_ }
      · rw [Bool.or_false]
        exact hs.lostOut
      · rw [Bool.or_false]
        exact hs.opened hsock
      · have hcall := callIn_eq hc
        rw [(hs.unopened hcon).2] at hcall
        exact absurd hcall (by simp)
    | true =>
      have hshut : l.opened = false := by simpa [RpcLink.mayOpen] using hmay
      have hlost : g.lostOut = [] := hs.lostOut.resolve_right fun hc => by simp [hshut] at hc
      rw [hyes 0 rfl]
      refine h.control ⟨rfl, setPhase_seqs hc _, rfl⟩ { hs with
        lostOut := .inl hlost
        opened := fun _ => Bool.or_true _
        unopened := fun hcon => ?_ }
      have hcall := callIn_eq hc
      rw [(hs.unopened hcon).2] at hcall
      exact absurd hcall (by simp)
  · exact absurd hstep (by simp)

theorem LinkOk.spawn (h : LinkOk J l g) (hp : l.peer.step (.spawn caller) = some p') :
    LinkOk J { l with peer := p' } g := by
  obtain ⟨c, hc, rfl⟩ := step_spawn hp
  have hkeys := (setPhase_keys hc .checking).trans (startRecv_keys _)
  refine h.control (o := l.opened) hkeys (Streams.startRecv { h.streams with
    unopened := fun hcon => ?_ })
  have hcall := callIn_eq hc
  rw [(h.streams.unopened hcon).2] at hcall
  exact absurd hcall (by simp)

/-- The thread that reads is there. -/
theorem Streams.thread {t : RecvThread} (h : Streams l g) (ht : l.peer.recvLoop = some t) :
    ¬ l.peer.recvThread = false := by
  intro hf
  rw [(h.unread hf).1] at ht
  exact absurd ht (by simp)

theorem LinkOk.loop (h : LinkOk J l g) (hp : l.peer.step .loop = some p') :
    LinkOk J { l with peer := p' } g := by
  obtain ⟨t, ht, rfl⟩ := step_loop hp
  refine h.control (o := l.opened) ⟨rfl, rfl, rfl⟩ { h.streams with
    reading := fun t' ht' => ?_
    unread := fun hf => (h.streams.thread ht hf).elim }
  simp only at ht'
  split at ht'
  · obtain rfl := Option.some.inj ht'
    exact h.streams.reading t ht
  · exact absurd ht' (by simp)

theorem LinkOk.again (h : LinkOk J l g) (hp : l.peer.step (.recv .again) = some p') :
    LinkOk J { l with peer := p' } g := by
  obtain ⟨t, ht, rfl⟩ := step_again hp
  refine h.control (o := l.opened) ⟨rfl, rfl, rfl⟩ { h.streams with
    reading := fun t' ht' => ?_
    unread := fun hf => (h.streams.thread ht hf).elim }
  obtain rfl := Option.some.inj ht'
  exact h.streams.reading t ht

/-! ## Calls -/

theorem LinkOk.call (h : LinkOk J l g) (hfits : LinkFits J l (.call m))
    (hstep : l.call m = some l') :
    LinkOk J l' g ∧ l.requests <+: l'.requests := by
  unfold RpcLink.call at hstep
  split at hstep
  swap
  · exact absurd hstep (by simp)
  rename_i hm
  obtain ⟨p', hp, rfl⟩ := Option.map_eq_some_iff.mp hstep
  obtain ⟨hcon, rfl⟩ := step_call hp
  obtain ⟨hfew, hframable⟩ := hfits
  have hgrow : l.requests <+: l.requests ++ [m] := List.prefix_append _ _
  have hN := h.numbering
  have hB := h.books
  have hnew : ∃ f, Asks J (l.requests ++ [m]) l.requests.length f := by
    obtain ⟨f, hf, -⟩ := frame_isSome J (UInt32.ofNat l.requests.length) m
    exact ⟨f, m, by simp, hm, hf, hframable f hf⟩
  have hlt : ∀ k < l.requests.length, k < (l.requests ++ [m]).length := fun k hk => by
    rw [List.length_append]
    exact Nat.lt_add_right _ hk
  refine ⟨⟨?_, ?_, ?_, { h.promises with }⟩, hgrow⟩
  · refine ⟨?_, fun k hk => ?_, ?_, ?_, fun k hk => ?_, fun seq hseq => ?_⟩
    · rw [List.length_append, List.length_singleton]
      exact hfew
    · rw [List.length_append, List.length_singleton] at hk
      rcases Nat.lt_succ_iff_lt_or_eq.mp hk with hk | rfl
      · obtain ⟨f, hf⟩ := hN.frames k hk
        exact ⟨f, hf.mono hgrow⟩
      · exact hnew
    · rw [List.length_append, List.length_singleton]
      show l.peer.seqGen + 1 = _
      rw [hN.seqGen]
      apply UInt32.toNat_inj.mp
      simp [UInt32.toNat_add]
    · show (l.peer.calls ++ _).map PeerCall.seq = (l.callers ++ _).map UInt32.ofNat
      rw [List.map_append, List.map_append, hN.calls, List.map_singleton, List.map_singleton,
        hN.seqGen]
    · rcases List.mem_append.mp hk with hk | hk
      · exact hlt k (hN.callers k hk)
      · rw [List.mem_singleton.mp hk, List.length_append, List.length_singleton]
        exact Nat.lt_succ_self _
    · exact ⟨hlt _ (hN.pending seq hseq).1, (hN.pending seq hseq).2⟩
  · exact { h.streams with
      unopened := fun hc => by
        have hc : l.peer.constructed = false := hc
        rw [hcon] at hc
        exact absurd hc (by simp) }
  · refine ⟨fun x hx => (hB.out x hx).mono hgrow, fun x hx => ?_, hB.handled, hB.back, ?_⟩
    · obtain ⟨node, hnode⟩ := hB.done x hx
      exact ⟨node, hnode.mono hgrow⟩
    · -- the new number is larger than all the others
      have hfresh : l.requests.length ∉
          l.callers ++ (g.out.map Prod.fst ++ g.done.map Prod.fst) := by
        intro hmem
        simp only [List.mem_append, List.mem_map] at hmem
        rcases hmem with hmem | ⟨x, hx, hk⟩ | ⟨x, hx, hk⟩
        · exact absurd (hN.callers _ hmem) (Nat.lt_irrefl _)
        · have := (hB.out x hx).lt
          omega
        · obtain ⟨node, hnode⟩ := hB.done x hx
          have := hnode.lt
          omega
      have hperm : (l.requests.length ::
          (l.callers ++ (g.out.map Prod.fst ++ g.done.map Prod.fst))).Perm
          (l.callers ++ [l.requests.length] ++ (g.out.map Prod.fst ++ g.done.map Prod.fst)) := by
        rw [List.append_assoc]
        exact List.perm_middle.symm
      exact hperm.nodup_iff.mp (List.nodup_cons.mpr ⟨hfresh, hB.apart⟩)

/-- The number of the call at a place, and its key. -/
theorem Numbering.seq_eq (h : Numbering J l) (hk : l.callers[caller]? = some k)
    (hc : l.peer.callIn caller phase = some c) : c.seq = UInt32.ofNat k := by
  have hseq := congrArg (fun xs => xs[caller]?) h.calls
  simp only [List.getElem?_map, callIn_eq hc, hk, Option.map_some, Option.some.injEq] at hseq
  exact hseq

/-- A call that returns gives its place back. -/
theorem Numbering.finish (h : Numbering J l) :
    (l.peer.finish caller).calls.map PeerCall.seq =
        (l.callers.eraseIdx caller).map UInt32.ofNat ∧
      ∀ k ∈ l.callers.eraseIdx caller, k < l.requests.length := by
  refine ⟨?_, fun k hk => h.callers k (List.mem_of_mem_eraseIdx hk)⟩
  show (l.peer.calls.eraseIdx caller).map PeerCall.seq = _
  rw [← List.eraseIdx_map, ← List.eraseIdx_map, h.calls]

theorem Books.finish (h : Books J l g) :
    (l.callers.eraseIdx caller ++ (g.out.map Prod.fst ++ g.done.map Prod.fst)).Nodup :=
  h.apart.sublist ((List.eraseIdx_sublist _ _).append_right _)

/-- An exception is no value. -/
theorem ok_of_update_error {α : Type} {f : Nat → Promise α} {i : Nat} {e : RpcError} {x : α}
    (h : Function.update f i (some (.error e)) k = some (.ok x)) : f k = some (.ok x) := by
  by_cases hk : k = i
  · subst hk
    rw [Function.update_self] at h
    exact absurd h (by simp)
  · rw [Function.update_of_ne hk] at h
    exact h

theorem LinkOk.constructed (h : LinkOk J l g) (hc : l.peer.callIn caller phase = some c) :
    l.peer.constructed = true := by
  by_contra hcon
  rw [Bool.not_eq_true] at hcon
  have hcall := callIn_eq hc
  rw [(h.streams.unopened hcon).2] at hcall
  exact absurd hcall (by simp)

theorem LinkOk.check (h : LinkOk J l g) (hstep : l.check caller = some l') : LinkOk J l' g := by
  simp only [RpcLink.check, Option.bind_eq_bind, Option.bind_eq_some_iff] at hstep
  obtain ⟨k, hk, c, hc, p', hp, hstep⟩ := hstep
  obtain ⟨c', hc', rfl⟩ := step_check hp
  obtain rfl : c' = c := Option.some.inj (hc'.symm.trans hc)
  have hN := h.numbering
  have hP := h.promises
  have hcon : ¬ l.peer.constructed = false := by
    rw [h.constructed hc]
    exact Bool.noConfusion
  by_cases hconn : l.peer.connected = true
  · rw [if_pos hconn, if_pos hconn] at hstep
    obtain rfl := Option.some.inj hstep
    refine ⟨⟨hN.few, hN.frames, hN.seqGen, ?_, hN.callers, fun seq hseq => ?_⟩,
      { h.streams with unopened := fun hc => (hcon hc).elim }, { h.books with },
      ⟨fun k' payload hin => ?_, hP.outcome⟩⟩
    · exact (setPhase_seqs hc _).trans hN.calls
    · show Function.update l.owner c'.seq k seq < l.requests.length ∧
        UInt32.ofNat (Function.update l.owner c'.seq k seq) = seq
      by_cases heq : seq = c'.seq
      · rw [heq, Function.update_self]
        exact ⟨hN.callers k (List.mem_of_getElem? hk), (hN.seq_eq hk hc).symm⟩
      · rw [Function.update_of_ne heq]
        exact hN.pending seq (List.mem_of_mem_erase ((List.mem_cons.mp hseq).resolve_left heq))
    · simp only at hin
      split at hin
      · exact hP.inner k' payload (ok_of_update_error hin)
      · exact hP.inner k' payload hin
  · rw [if_neg hconn, if_neg hconn] at hstep
    obtain rfl := Option.some.inj hstep
    refine ⟨⟨hN.few, hN.frames, hN.seqGen, hN.finish.1, hN.finish.2, hN.pending⟩,
      { h.streams with unopened := fun hc => (hcon hc).elim },
      { h.books with apart := h.books.finish },
      ⟨hP.inner, fun k' m hout => hP.outcome k' m (ok_of_update_error hout)⟩⟩

/-- The promises behind a disconnection. -/
theorem Promises.rejected (h : Promises J l g) {payload : Bytes}
    (hin : l.rejectPending k = some (.ok payload)) :
    ∃ q f, (k, q, f) ∈ g.done ∧ f.payload = payload := by
  unfold RpcLink.rejectPending at hin
  split at hin
  · exact absurd hin (by simp)
  · exact h.inner k payload hin

theorem LinkOk.lost (h : LinkOk J l g) (hstep : l.lost = some l') : LinkOk J l' g := by
  obtain ⟨p', hp, rfl⟩ := Option.map_eq_some_iff.mp hstep
  obtain rfl := step_closed hp
  have hN := h.numbering
  refine ⟨{ hN with pending := fun _ hs => absurd hs (by simp [RaftPeer.disconnect]) },
    { h.streams with
      lostOut := ?_
      opened := fun hs => absurd hs (by simp [RaftPeer.disconnect])
      reading := fun _ ht => absurd ht (by simp)
      unread := fun hf => ⟨rfl, (h.streams.unread hf).2⟩ },
    { h.books with }, ⟨fun _ _ => h.promises.rejected, h.promises.outcome⟩⟩
  rcases h.streams.lostOut with hl | hl
  · exact .inl hl
  · exact .inr ⟨hl.1, rfl⟩

theorem Books.sent (h : Books J l g) (hk : l.callers[caller]? = some k) (f : RpcFrame) :
    (l.callers.eraseIdx caller ++
      ((g.out ++ [(k, f)]).map Prod.fst ++ g.done.map Prod.fst)).Nodup := by
  obtain ⟨hlt, hget⟩ := List.getElem?_eq_some_iff.mp hk
  have hperm : (l.callers ++ (g.out.map Prod.fst ++ g.done.map Prod.fst)).Perm
      (l.callers.eraseIdx caller ++
        ((g.out ++ [(k, f)]).map Prod.fst ++ g.done.map Prod.fst)) := by
    have hfirst : l.callers.Perm (k :: l.callers.eraseIdx caller) := by
      have := List.getElem_cons_eraseIdx_perm hlt
      rw [hget] at this
      exact this.symm
    refine (hfirst.append_right _).trans ?_
    have hmid := @List.perm_middle _ k (l.callers.eraseIdx caller ++ g.out.map Prod.fst)
      (g.done.map Prod.fst)
    rw [List.map_append, List.map_singleton, List.append_assoc, List.singleton_append,
      List.cons_append]
    rw [List.append_assoc, List.append_assoc] at hmid
    exact hmid.symm
  exact hperm.nodup_iff.mp h.apart

/-- What the call sends. -/
theorem LinkOk.frame (h : LinkOk J l g) {bytes : Bytes} (hk : l.callers[caller]? = some k)
    (hc : l.peer.callIn caller phase = some c) (hm : l.requests[k]? = some m)
    (hf : m.frame J c.seq = some f) (hb : f.encode = some bytes) :
    Asks J l.requests k f ∧ bytes = frameBytes f := by
  have hN := h.numbering
  obtain ⟨f', m', hm', hreq, hf', hok⟩ := hN.frames k (hN.callers k (List.mem_of_getElem? hk))
  obtain rfl : m = m' := Option.some.inj (hm.symm.trans hm')
  rw [hN.seq_eq hk hc] at hf
  obtain rfl : f = f' := Option.some.inj (hf.symm.trans hf')
  rw [encode_eq hok, Option.some.injEq] at hb
  exact ⟨⟨m, hm, hreq, hf, hok⟩, hb.symm⟩

theorem LinkOk.send {part : Option Nat} (h : LinkOk J l g)
    (hstep : l.send J caller part = some l') :
    ∃ g', LinkOk J l' g' ∧ g'.done = g.done ∧ l'.requests = l.requests := by
  simp only [RpcLink.send, Option.bind_eq_bind, Option.bind_eq_some_iff] at hstep
  obtain ⟨k, hk, c, hc, m, hm, f, hf, bytes, hb, hstep⟩ := hstep
  obtain ⟨hasks, rfl⟩ := h.frame hk hc hm hf hb
  have hN := h.numbering
  have hS := h.streams
  have hB := h.books
  have hP := h.promises
  have hcon : ¬ l.peer.constructed = false := by
    rw [h.constructed hc]
    exact Bool.noConfusion
  have hout : ∀ x ∈ g.out ++ [(k, f)], Asks J l.requests x.1 x.2 := by
    intro x hx
    rcases List.mem_append.mp hx with hx | hx
    · exact hB.out x hx
    · rw [List.mem_singleton.mp hx]
      exact hasks
  cases hsock : l.peer.sockfd with
  | none =>
    rw [hsock] at hstep
    obtain ⟨p', hp, hstep⟩ := Option.bind_eq_some_iff.mp hstep
    obtain ⟨c', hc', -, -, hnone⟩ := step_send hp
    obtain rfl := hnone hsock
    obtain rfl := Option.some.inj hstep
    exact ⟨g, ⟨⟨hN.few, hN.frames, hN.seqGen, hN.finish.1, hN.finish.2,
        fun seq hs => hN.pending seq (List.mem_of_mem_erase hs)⟩,
      { hS with unopened := fun hc => (hcon hc).elim },
      { hB with apart := hB.finish },
      ⟨hP.inner, fun k' m hout => hP.outcome k' m (ok_of_update_error hout)⟩⟩, rfl, rfl⟩
  | some fd =>
    have hsome : l.peer.sockfd.isSome = true := by rw [hsock]; rfl
    have hlost : g.lostOut = [] := hS.lostOut.resolve_right fun hl => by
      rw [hl.2] at hsock
      exact absurd hsock (by simp)
    have hstream := hS.toServer
    rw [hlost, List.append_nil] at hstream
    cases part with
    | none =>
      rw [hsock] at hstep
      obtain ⟨p', hp, hstep⟩ := Option.bind_eq_some_iff.mp hstep
      obtain ⟨c', hc', hall, -, -⟩ := step_send hp
      obtain rfl := hall hsome rfl
      obtain rfl := Option.some.inj hstep
      refine ⟨{ g with out := g.out ++ [(k, f)] }, ⟨⟨hN.few, hN.frames, hN.seqGen, hN.finish.1,
        hN.finish.2, hN.pending⟩, { hS with toServer := ?_, unopened := fun hc => (hcon hc).elim },
        { hB with out := hout, apart := hB.sent hk f }, ⟨hP.inner, hP.outcome⟩⟩, rfl, rfl⟩
      show l.conn.buf ++ (l.toServer ++ frameBytes f) ++ g.lostOut = _
      rw [hlost, List.append_nil, ← List.append_assoc, hstream, bytesOf_concat]
    | some n =>
      rw [hsock] at hstep
      dsimp only at hstep
      split at hstep
      swap
      · exact absurd hstep (by simp)
      obtain ⟨p', hp, hstep⟩ := Option.bind_eq_some_iff.mp hstep
      obtain ⟨c', hc', -, hsome', -⟩ := step_send hp
      obtain rfl := hsome' hsome rfl
      obtain rfl := Option.some.inj hstep
      refine ⟨{ g with out := g.out ++ [(k, f)], lostOut := (frameBytes f).drop n },
        ⟨⟨hN.few, hN.frames, hN.seqGen, hN.finish.1, hN.finish.2,
          fun _ hs => absurd hs (by simp [RaftPeer.disconnect, RaftPeer.finish])⟩,
        { hS with
          toServer := ?_
          lostOut := .inr ⟨hS.opened hsome, rfl⟩
          opened := fun hs => absurd hs (by simp [RaftPeer.disconnect, RaftPeer.finish])
          unopened := fun hc => (hcon hc).elim },
        { hB with out := hout, apart := hB.sent hk f },
        ⟨fun _ _ => hP.rejected, fun k' m hout => hP.outcome k' m (ok_of_update_error hout)⟩⟩,
        rfl, rfl⟩
      show l.conn.buf ++ (l.toServer ++ (frameBytes f).take n) ++ (frameBytes f).drop n = _
      rw [List.append_assoc, List.append_assoc, List.take_append_drop, ← List.append_assoc, hstream,
        bytesOf_concat]

theorem LinkOk.wait {timeout : Bool} (h : LinkOk J l g) (hstep : l.wait J k timeout = some l') :
    LinkOk J l' g ∧ l'.requests = l.requests := by
  unfold RpcLink.wait at hstep
  have hP := h.promises
  split at hstep
  swap
  · exact absurd hstep (by simp)
  split at hstep
  · obtain rfl := Option.some.inj hstep
    exact ⟨{ h with
      numbering := { h.numbering with }, streams := { h.streams with }, books := { h.books with }
      promises := ⟨hP.inner, fun k' m hout => hP.outcome k' m (ok_of_update_error hout)⟩ }, rfl⟩
  · rename_i payload hinner
    obtain ⟨m, hm, rfl⟩ := Option.map_eq_some_iff.mp hstep
    refine ⟨{ h with
      numbering := { h.numbering with }, streams := { h.streams with }, books := { h.books with }
      promises := ⟨hP.inner, fun k' m' hout => ?_⟩ }, rfl⟩
    by_cases hk : k' = k
    · subst hk
      simp only [Function.update_self, Option.some.injEq] at hout
      obtain ⟨q, f, hdone, rfl⟩ := hP.inner k' payload hinner
      obtain ⟨node, m₀, m₁, node', hm₀, -, hans, hf, -⟩ := h.books.done _ hdone
      obtain rfl : m = m₀ := Option.some.inj (hm.symm.trans hm₀)
      rw [readResponse_frame hans hf, Except.ok.injEq] at hout
      subst hout
      exact ⟨q, f, hdone, ofFrame_frame hf⟩
    · simp only [Function.update_of_ne hk] at hout
      exact hP.outcome k' m' hout
  · obtain rfl := Option.some.inj hstep
    exact ⟨{ h with
      numbering := { h.numbering with }, streams := { h.streams with }, books := { h.books with }
      promises := ⟨hP.inner, fun k' m hout => hP.outcome k' m (ok_of_update_error hout)⟩ }, rfl⟩
  · exact absurd hstep (by simp)

end Control

end Proof
end OrcDb
