import OrcDb.Raft.Wire
import OrcDb.Lib.JsonText

/-!
# Messages survive the wire

Two halves. A message survives its document: what `Serialize` prints, `Deserialize` reads back
field by field (`ofFrame_frame`). A frame survives the stream: `Encode` and `Decode` meet the
contract of `Lib/Stream.lean` for every payload whose length plus nine is still a `uint32_t`
(`rpcFrame_delimits`), so it does not matter how the stream is cut.
-/

set_option autoImplicit false

namespace OrcDb
namespace Proof

open Lib

/-! ## Documents -/

theorem serialize_request (J : Json.Codec) (r : AppendEntriesRequest) :
    r.serialize J = some (J.dump (r.toJson (r.entries.map LogEntry.toJson))) := by
  have hentries : r.entries.mapM (fun e => J.parse (e.serialize J)) =
      some (r.entries.map LogEntry.toJson) :=
    Json.mapM_eq_some_map fun e _ => J.parse_dump _ e.toJson_canonical
  simp [AppendEntriesRequest.serialize, hentries]

theorem request_canonical (r : AppendEntriesRequest) :
    (r.toJson (r.entries.map LogEntry.toJson)).Canonical := by
  have hentries : (Json.arr (r.entries.map LogEntry.toJson)).Canonical :=
    .arr_map fun e _ => e.toJson_canonical
  refine .of_keys (by simp only [List.map_cons, List.map_nil]; decide) ?_
  simp only [List.mem_cons, List.not_mem_nil, or_false, forall_eq_or_imp, forall_eq]
  exact ⟨hentries, .num _, .str _, .num _, .num _, .num _⟩

theorem deserialize_request (J : Json.Codec) (r : AppendEntriesRequest) :
    AppendEntriesRequest.deserialize J (J.dump (r.toJson (r.entries.map LogEntry.toJson))) =
      some r := by
  have hentries :
      (r.entries.map LogEntry.toJson).mapM (fun e => LogEntry.deserialize J (J.dump e)) =
        some r.entries := by
    rw [List.mapM_map, Json.mapM_eq_some_map (g := id), List.map_id]
    exact fun e _ => LogEntry.deserialize_serialize J e
  have hfield : (r.toJson (r.entries.map LogEntry.toJson)).field? "entries" =
      some (.arr (r.entries.map LogEntry.toJson)) := rfl
  rw [AppendEntriesRequest.deserialize, J.parse_dump _ (request_canonical r), Option.bind_eq_bind,
    Option.bind_some]
  simp only [hfield, Option.getD_some, Json.elements, hentries]
  rfl

theorem deserialize_response (J : Json.Codec) (r : AppendEntriesResponse) :
    AppendEntriesResponse.deserialize J (r.serialize J) = some r := by
  have hcanonical : r.toJson.Canonical :=
    .flat (by simp only [List.map_cons, List.map_nil]; decide) rfl
  rw [AppendEntriesResponse.deserialize, AppendEntriesResponse.serialize,
    J.parse_dump _ hcanonical]
  rfl

theorem deserialize_voteRequest (J : Json.Codec) (r : RequestVoteRequest) :
    RequestVoteRequest.deserialize J (r.serialize J) = some r := by
  have hcanonical : r.toJson.Canonical :=
    .flat (by simp only [List.map_cons, List.map_nil]; decide) rfl
  rw [RequestVoteRequest.deserialize, RequestVoteRequest.serialize, J.parse_dump _ hcanonical]
  rfl

theorem deserialize_voteResponse (J : Json.Codec) (r : RequestVoteResponse) :
    RequestVoteResponse.deserialize J (r.serialize J) = some r := by
  have hcanonical : r.toJson.Canonical :=
    .flat (by simp only [List.map_cons, List.map_nil]; decide) rfl
  rw [RequestVoteResponse.deserialize, RequestVoteResponse.serialize, J.parse_dump _ hcanonical]
  rfl

/-- **A message survives its document.** -/
theorem ofFrame_frame {J : Json.Codec} {seq : UInt32} {m : RpcMessage} {f : RpcFrame}
    (h : m.frame J seq = some f) : RpcMessage.ofFrame J f = some m := by
  obtain ⟨s, hs, rfl⟩ := Option.map_eq_some_iff.mp h
  simp only [RpcMessage.ofFrame, ofBytes?_toBytes, Option.bind_eq_bind, Option.bind_some]
  cases m with
  | appendEntriesReq r =>
    simp only [RpcMessage.serialize, serialize_request, Option.some.injEq] at hs
    subst hs
    simp [RpcMessage.type, deserialize_request]
  | appendEntriesResp r =>
    simp only [RpcMessage.serialize, Option.some.injEq] at hs
    subst hs
    simp [RpcMessage.type, deserialize_response]
  | requestVoteReq r =>
    simp only [RpcMessage.serialize, Option.some.injEq] at hs
    subst hs
    simp [RpcMessage.type, deserialize_voteRequest]
  | requestVoteResp r =>
    simp only [RpcMessage.serialize, Option.some.injEq] at hs
    subst hs
    simp [RpcMessage.type, deserialize_voteResponse]

theorem frame_isSome (J : Json.Codec) (seq : UInt32) (m : RpcMessage) :
    ∃ f, m.frame J seq = some f ∧ f.seq = seq := by
  cases m with
  | appendEntriesReq r =>
    rw [RpcMessage.frame, RpcMessage.serialize, serialize_request, Option.map_some]
    exact ⟨_, rfl, rfl⟩
  | appendEntriesResp r => exact ⟨_, rfl, rfl⟩
  | requestVoteReq r => exact ⟨_, rfl, rfl⟩
  | requestVoteResp r => exact ⟨_, rfl, rfl⟩

/-! ## Frames -/

/-- The length of the frame is a `uint32_t`. -/
def Framable (f : RpcFrame) : Prop := f.payload.length < 2 ^ 32 - 9

def frameBytes (f : RpcFrame) : Bytes :=
  f.type.toByte :: (le32 f.seq.toNat ++ (le32 f.payload.length ++ f.payload))

variable {f : RpcFrame}

theorem encode_eq (h : Framable f) : f.encode = some (frameBytes f) := by
  unfold Framable at h
  have hlen : f.payload.length % 2 ^ 32 = f.payload.length := Nat.mod_eq_of_lt (by omega)
  have hsum : (9 + f.payload.length) % 2 ^ 32 = 9 + f.payload.length := Nat.mod_eq_of_lt (by omega)
  unfold RpcFrame.encode
  simp only [hlen, hsum, Nat.lt_irrefl, if_false, List.take_length]
  rfl

theorem header_frameBytes (h : Framable f) (rest : Bytes) :
    RpcFrame.header (frameBytes f ++ rest) =
      some (f.type, f.seq, f.payload.length, f.payload ++ rest) := by
  have hseq : f.seq.toNat < 2 ^ 32 := UInt32.toNat_lt _
  have hlen : f.payload.length < 2 ^ 32 := by
    unfold Framable at h
    omega
  simp only [RpcFrame.header, frameBytes, List.cons_append, List.append_assoc,
    readLe32_le32 hseq, readLe32_le32 hlen, Option.bind_eq_bind, Option.bind_some,
    RpcType.ofByte_toByte, UInt32.ofNat_toNat]
  rfl

theorem header_inv {data rest : Bytes} {type : RpcType} {seq : UInt32} {payloadLen : Nat}
    (h : RpcFrame.header data = some (type, seq, payloadLen, rest)) :
    data.length = 9 + rest.length ∧ ∀ more,
      RpcFrame.header (data ++ more) = some (type, seq, payloadLen, rest ++ more) := by
  unfold RpcFrame.header at h
  cases data with
  | nil => exact absurd h (by simp)
  | cons b data =>
    simp only [Option.bind_eq_bind, Option.bind_eq_some_iff, Prod.exists, pure, Option.some.injEq,
      Prod.mk.injEq] at h
    obtain ⟨n, data₁, h₁, len, data₂, h₂, rfl, rfl, rfl, rfl⟩ := h
    have hlen₁ := readLe32_length h₁
    have hlen₂ := readLe32_length h₂
    refine ⟨by rw [List.length_cons]; omega, ?_⟩
    intro more
    simp only [RpcFrame.header, List.cons_append, readLe32_append h₁, readLe32_append h₂,
      Option.bind_eq_bind, Option.bind_some]
    rfl

theorem length_frameBytes (f : RpcFrame) : (frameBytes f).length = 9 + f.payload.length := by
  simp [frameBytes, le32]
  omega

/-- **`Encode` and `Decode` delimit frames.** -/
theorem rpcFrame_delimits : Delimits Framable frameBytes RpcFrame.decode where
  nothing := rfl
  whole := by
    intro f hf rest
    have hsum : (9 + f.payload.length) % 2 ^ 32 = 9 + f.payload.length :=
      Nat.mod_eq_of_lt (by unfold Framable at hf; omega)
    unfold RpcFrame.decode
    rw [header_frameBytes hf]
    dsimp only
    rw [hsum, List.length_append, length_frameBytes, if_neg (by omega),
      if_neg (by rw [List.length_append]; omega), List.take_left]
  part := by
    intro f hf p q hpq hq
    unfold RpcFrame.decode
    cases hp : RpcFrame.header p with
    | none => rfl
    | some parts =>
      obtain ⟨type, seq, payloadLen, rest⟩ := parts
      obtain ⟨hlen, hmore⟩ := header_inv hp
      have hwhole := hmore q
      have hbytes := header_frameBytes hf []
      rw [List.append_nil, List.append_nil, ← hpq, hwhole] at hbytes
      simp only [Option.some.injEq, Prod.mk.injEq] at hbytes
      obtain ⟨-, -, hpayload, hrest⟩ := hbytes
      have hsum : (9 + payloadLen) % 2 ^ 32 = 9 + payloadLen :=
        Nat.mod_eq_of_lt (by unfold Framable at hf; omega)
      have hshort : rest.length < payloadLen := by
        rw [hpayload, ← hrest, List.length_append]
        have := List.length_pos_iff.mpr hq
        omega
      dsimp only
      rw [hsum, if_pos (by omega)]

/-! ## The result -/

/-- **Raft RPC survives the wire.** Messages with any sequence numbers, each shorter than
    `2^32 - 9` bytes, can be framed and encoded; and however the concatenation of the encodings
    is cut into chunks, `RecvLoop` takes out exactly these frames, with an empty buffer at the
    end, and each payload is read back as the message it was. -/
theorem rpc_survives (J : Json.Codec) (msgs : List (UInt32 × RpcMessage))
    (hsize : ∀ m ∈ msgs, ∀ s, m.2.serialize J = some s → (toBytes s).length < 2 ^ 32 - 9) :
    ∃ frames encodings, msgs.mapM (fun m => m.2.frame J m.1) = some frames ∧
      frames.mapM RpcFrame.encode = some encodings ∧
      frames.map RpcFrame.seq = msgs.map Prod.fst ∧
      (∀ chunks : List Bytes, chunks.flatten = encodings.flatten →
        recvLoop chunks = some (frames, [])) ∧
      frames.mapM (RpcMessage.ofFrame J) = some (msgs.map Prod.snd) := by
  have hframes : ∃ frames, msgs.mapM (fun m => m.2.frame J m.1) = some frames ∧
      frames.map RpcFrame.seq = msgs.map Prod.fst ∧ (∀ f ∈ frames, Framable f) ∧
      frames.mapM (RpcMessage.ofFrame J) = some (msgs.map Prod.snd) := by
    induction msgs with
    | nil => exact ⟨[], rfl, rfl, by simp, rfl⟩
    | cons m msgs ih =>
      rw [List.forall_mem_cons] at hsize
      obtain ⟨frames, h₁, h₂, h₃, h₄⟩ := ih hsize.2
      obtain ⟨f, hf, hseq⟩ := frame_isSome J m.1 m.2
      have hok : Framable f := by
        obtain ⟨s, hs, rfl⟩ := Option.map_eq_some_iff.mp hf
        exact hsize.1 s hs
      refine ⟨f :: frames, ?_, ?_, ?_, ?_⟩
      · rw [List.mapM_cons, hf, h₁]
        rfl
      · rw [List.map_cons, List.map_cons, hseq, h₂]
      · rw [List.forall_mem_cons]
        exact ⟨hok, h₃⟩
      · rw [List.mapM_cons, ofFrame_frame hf, h₄]
        rfl
  obtain ⟨frames, hmap, hseq, hok, hback⟩ := hframes
  have hencode : frames.mapM RpcFrame.encode = some (frames.map frameBytes) :=
    Json.mapM_eq_some_map fun f hf => encode_eq (hok f hf)
  exact ⟨frames, _, hmap, hencode, hseq, fun chunks h => rpcFrame_delimits.feedAll_pieces hok h,
    hback⟩

/-- A request with an entry, and the answer to a vote. -/
def twoMessages : List (UInt32 × RpcMessage) :=
  [(7, .appendEntriesReq { term := 2, leaderId := "A", entries := [{ term := 2, index := 1 }] }),
   (8, .requestVoteResp { term := 2, voteGranted := true })]

theorem rpc_survives_two : ∃ frames encodings,
    twoMessages.mapM (fun m => m.2.frame Json.text m.1) = some frames ∧
      frames.mapM RpcFrame.encode = some encodings ∧
      frames.map RpcFrame.seq = [7, 8] ∧
      (∀ chunks : List Bytes, chunks.flatten = encodings.flatten →
        recvLoop chunks = some (frames, [])) ∧
      frames.mapM (RpcMessage.ofFrame Json.text) = some (twoMessages.map Prod.snd) := by
  refine rpc_survives Json.text twoMessages ?_
  have hshort : ∀ m ∈ twoMessages, (m.2.serialize Json.text).all
      (fun s => decide ((toBytes s).length < 2 ^ 32 - 9)) = true := by
    decide +kernel
  intro m hm s hs
  have := hshort m hm
  rw [hs] at this
  simpa using this

end Proof
end OrcDb
