import OrcDb.Raft.RpcServer
import OrcDb.Proof.Raft.Wire

/-!
# The length field at its upper end

`frameAt` is the reader `Decode` is meant to be: the same header, the sum `9 + L` a natural
number. It is steady, so every byte stream is a list of frames and a rest (`rpcFrames`, `rpcRest`).
`Decode` agrees with it exactly where the sum is a `uint32_t` (`stays_iff`). Where it is not,
the wrapped sum is below nine, the check passes on any nine bytes, and the copy leaves the
buffer, or, if there are four more gigabytes, `consumed` is wrong.

Both receive loops look at the buffer only through `Decode`. On a stream whose headers all fit
they take the frames of `frameAt` and stop (`loopSound_iff`).
-/

set_option autoImplicit false

namespace OrcDb
namespace Proof

open Lib
open RaftRpcServer (Conn Fault decodeLoop)

/-! ## The reader over the natural numbers -/

/-- The four bytes `Decode` reads as `payloadLen`. -/
def lengthField (data : Bytes) : Option Nat :=
  if data.length < 9 then none else (readLe32 (data.drop 5)).map Prod.fst

def frameAt (data : Bytes) : Read RpcFrame :=
  match RpcFrame.header data with
  | none => .more
  | some (type, seq, payloadLen, rest) =>
      if rest.length < payloadLen then .more
      else .item { type, seq, payload := rest.take payloadLen } (9 + payloadLen)

/-- The complete frames of a stream, and the bytes behind them. -/
def rpcFrames (stream : Bytes) : List RpcFrame := (cut frameAt stream).1

def rpcRest (stream : Bytes) : Bytes := (cut frameAt stream).2

/-- The sum `Decode` computes does not wrap. -/
def HeaderFits (data : Bytes) : Prop := ∀ L, lengthField data = some L → 9 + L < 2 ^ 32

/-- Every frame of a stream is shorter than `2^32` bytes, the last one also where only its
    header has arrived. -/
def Fits (stream : Bytes) : Prop :=
  (∀ f ∈ rpcFrames stream, Framable f) ∧ HeaderFits (rpcRest stream)

variable {data : Bytes}

instance (data : Bytes) : Decidable (HeaderFits data) :=
  decidable_of_iff ((lengthField data).all fun L => 9 + L < 2 ^ 32)
    (by simp [HeaderFits, Option.all_eq_true])

instance (f : RpcFrame) : Decidable (Framable f) := inferInstanceAs (Decidable (_ < _))

instance (stream : Bytes) : Decidable (Fits stream) := inferInstanceAs (Decidable (_ ∧ _))

/-- What is at the front of a buffer: too little, or a header. -/
inductive Front (data : Bytes) : Prop where
  | short (hlen : data.length < 9) (hheader : RpcFrame.header data = none)
      (hfield : lengthField data = none)
  | header (type : RpcType) (seq : UInt32) (L : Nat) (hlen : 9 ≤ data.length) (hL : L < 2 ^ 32)
      (hheader : RpcFrame.header data = some (type, seq, L, data.drop 9))
      (hfield : lengthField data = some L)

theorem front (data : Bytes) : Front data := by
  by_cases hlen : data.length < 9
  · refine .short hlen ?_ (if_pos hlen)
    cases hheader : RpcFrame.header data with
    | none => rfl
    | some parts =>
      obtain ⟨type, seq, L, tail⟩ := parts
      have := (header_inv hheader).1
      omega
  · obtain ⟨b, tail, rfl⟩ := List.exists_cons_of_length_pos (l := data) (by omega)
    rw [List.length_cons] at hlen
    have hfour : 4 ≤ tail.length := by omega
    have hfour' : 4 ≤ (tail.drop 4).length := by
      rw [List.length_drop]
      omega
    obtain ⟨seq, -, hseq⟩ := readLe32_of_length hfour
    obtain ⟨L, hL, hfield⟩ := readLe32_of_length hfour'
    refine .header (RpcType.ofByte b) (UInt32.ofNat seq) L
      (by rw [List.length_cons]; omega) hL ?_ ?_
    · simp [RpcFrame.header, hseq, hfield]
    · simp [lengthField, hlen, hfield]

theorem frameAt_steady : SteadyReader frameAt where
  good := by
    intro buf
    unfold frameAt
    cases front buf with
    | short _ hheader _ => simp [hheader]
    | header type seq L _ _ hheader _ =>
      rw [hheader]
      dsimp only
      split <;> simp
  inside := by
    intro buf f n hread
    unfold frameAt at hread
    cases front buf with
    | short _ hheader _ =>
      rw [hheader] at hread
      exact absurd hread (by simp)
    | header type seq L hlen _ hheader _ =>
      rw [hheader] at hread
      dsimp only at hread
      split at hread
      · exact absurd hread (by simp)
      · rename_i hshort
        rw [List.length_drop] at hshort
        cases hread
        omega
  stable := by
    intro buf f n hread more
    unfold frameAt at hread ⊢
    cases front buf with
    | short _ hheader _ =>
      rw [hheader] at hread
      exact absurd hread (by simp)
    | header type seq L hlen _ hheader _ =>
      rw [(header_inv hheader).2 more]
      rw [hheader] at hread
      dsimp only at hread ⊢
      split at hread
      · exact absurd hread (by simp)
      · rename_i hshort
        rw [if_neg (by rw [List.length_append]; omega), ← hread,
          List.take_append_of_le_length (Nat.le_of_not_lt hshort)]

/-! ## `Decode` -/

/-- `Decode` stays inside its buffer: it takes a frame exactly if the whole frame is there,
    with its length and its bytes. -/
def Stays (data : Bytes) : Prop :=
  match RpcFrame.decode data with
  | .item f consumed => ∃ L, lengthField data = some L ∧ 9 + L ≤ data.length ∧
      0 < consumed ∧ consumed = 9 + L ∧ f.payload = (data.drop 9).take L
  | .more => ∀ L, lengthField data = some L → data.length < 9 + L
  | .bad => False

theorem decode_eq (h : HeaderFits data) : RpcFrame.decode data = frameAt data := by
  unfold RpcFrame.decode frameAt
  cases front data with
  | short _ hheader _ => rw [hheader]
  | header type seq L hlen _ hheader hfield =>
    have hsum : (9 + L) % 2 ^ 32 = 9 + L := Nat.mod_eq_of_lt (h L hfield)
    rw [hheader]
    dsimp only
    rw [hsum, List.length_drop]
    by_cases hshort : data.length < 9 + L
    · rw [if_pos hshort, if_pos (by omega)]
    · rw [if_neg hshort, if_neg (by omega), if_neg (by omega)]

/-- **Where the sum fits**, and only there, `Decode` does what it is for. -/
theorem stays_iff : Stays data ↔ HeaderFits data := by
  unfold Stays
  constructor
  · intro hstays L hfield
    -- otherwise the wrapped sum is less than nine, and the check passes
    by_contra hwrap
    cases front data with
    | short _ _ hnone => exact absurd (hnone.symm.trans hfield) (by simp)
    | header type seq L' hlen hL hheader hfield' =>
      cases hfield'.symm.trans hfield
      have hsum : (9 + L) % 2 ^ 32 < 9 := by omega
      unfold RpcFrame.decode at hstays
      rw [hheader] at hstays
      dsimp only at hstays
      rw [if_neg (by omega)] at hstays
      by_cases hover : (data.drop 9).length < L
      · rw [if_pos hover] at hstays
        exact hstays
      · rw [if_neg hover] at hstays
        obtain ⟨L', hL', -, -, hconsumed, -⟩ := hstays
        cases hfield.symm.trans hL'
        omega
  · intro hfits
    rw [decode_eq hfits]
    unfold frameAt
    cases front data with
    | short _ hheader hfield =>
      rw [hheader]
      intro L hL
      exact absurd (hfield.symm.trans hL) (by simp)
    | header type seq L hlen _ hheader hfield =>
      rw [hheader]
      dsimp only
      rw [List.length_drop]
      by_cases hshort : data.length - 9 < L
      · rw [if_pos hshort]
        intro L' hL'
        cases hfield.symm.trans hL'
        omega
      · rw [if_neg hshort]
        exact ⟨L, hfield, by omega, by omega, rfl, rfl⟩

/-! ## The loops -/

theorem fits_of_more (h : frameAt data = .more) : Fits data ↔ HeaderFits data := by
  unfold Fits rpcFrames rpcRest
  rw [cut_of_more h]
  simp

theorem frameAt_framable {f : RpcFrame} {n : Nat} (h : frameAt data = .item f n) :
    HeaderFits data ↔ Framable f := by
  unfold frameAt at h
  cases front data with
  | short _ hheader _ =>
    rw [hheader] at h
    exact absurd h (by simp)
  | header type seq L hlen _ hheader hfield =>
    rw [hheader] at h
    dsimp only at h
    split at h
    · exact absurd h (by simp)
    · rename_i hshort
      cases h
      simp only [HeaderFits, hfield, Option.some.injEq, forall_eq', Framable, List.length_take]
      omega

theorem fits_of_item {f : RpcFrame} {n : Nat} (h : frameAt data = .item f n) :
    Fits data ↔ HeaderFits data ∧ Fits (data.drop n) := by
  unfold Fits rpcFrames rpcRest
  rw [frameAt_steady.cut_of_item h, List.forall_mem_cons, frameAt_framable h, and_assoc]

theorem Fits.header (h : Fits data) : HeaderFits data := by
  cases hread : frameAt data with
  | more => exact (fits_of_more hread).mp h
  | item f n => exact ((fits_of_item hread).mp h).1
  | bad => exact absurd hread (frameAt_steady.good data)

/-- The loop of `RaftPeer::RecvLoop` on a buffer: every call of `Decode` stays inside what is
    left of it and the loop ends. -/
def PeerLoop (data : Bytes) : Prop :=
  (∀ d ∈ fronts RpcFrame.decode (data.length + 1) data, Stays d) ∧
    (drain RpcFrame.decode (data.length + 1) data).isSome

/-- The loop of `RaftRpcServer::HandleConn` on a buffer, whatever the node does with a request
    and whatever becomes of the node in between. -/
def ServerLoop (data : Bytes) : Prop :=
  ∀ (J : Json.Codec) (others : Nat → RaftNode → RaftNode) (s : Conn), s.buf = data →
    decodeLoop J others (data.length + 1) s ≠ .error .overrun ∧
      decodeLoop J others (data.length + 1) s ≠ .error .spins

theorem fits_of_fronts {fuel : Nat} (hfuel : data.length < fuel)
    (h : ∀ d ∈ fronts RpcFrame.decode fuel data, Stays d) : Fits data := by
  induction data using frameAt_steady.induct generalizing fuel with
  | more buf hread =>
    obtain ⟨fuel, rfl⟩ : ∃ f, fuel = f + 1 := ⟨fuel - 1, by omega⟩
    exact (fits_of_more hread).mpr (stays_iff.mp (h buf List.mem_cons_self))
  | item buf f n hread ih =>
    obtain ⟨fuel, rfl⟩ : ∃ f, fuel = f + 1 := ⟨fuel - 1, by omega⟩
    obtain ⟨hpos, hle⟩ := frameAt_steady.inside hread
    have hfits : HeaderFits buf := stays_iff.mp (h buf List.mem_cons_self)
    have hrest : (buf.drop n).length < fuel := by
      rw [List.length_drop]
      omega
    refine (fits_of_item hread).mpr ⟨hfits, ih hrest ?_⟩
    intro d hd
    refine h d (List.mem_cons_of_mem _ ?_)
    rw [decode_eq hfits, hread]
    exact hd

theorem fronts_of_fits {fuel : Nat} (h : Fits data) :
    ∀ d ∈ fronts RpcFrame.decode fuel data, Stays d := by
  induction fuel generalizing data with
  | zero => simp [fronts]
  | succ fuel ih =>
    rw [fronts, List.forall_mem_cons, decode_eq h.header]
    refine ⟨stays_iff.mpr h.header, ?_⟩
    cases hread : frameAt data with
    | more => simp
    | bad => simp
    | item f n => exact ih ((fits_of_item hread).mp h).2

/-- On a stream that fits, `RecvLoop` takes the frames of the stream. -/
theorem drain_of_fits (h : Fits data) {fuel : Nat} (hfuel : data.length < fuel) :
    drain RpcFrame.decode fuel data = some (rpcFrames data, rpcRest data) := by
  suffices hsame : drain RpcFrame.decode fuel data = drain frameAt fuel data by
    rw [hsame, frameAt_steady.drain_eq_cut data fuel hfuel]
    rfl
  induction fuel generalizing data with
  | zero => rfl
  | succ fuel ih =>
    rw [drain, drain, decode_eq h.header]
    cases hread : frameAt data with
    | more => rfl
    | bad => rfl
    | item f n =>
      obtain ⟨hpos, hle⟩ := frameAt_steady.inside hread
      have hrest : (data.drop n).length < fuel := by
        rw [List.length_drop]
        omega
      simp only [ih ((fits_of_item hread).mp h).2 hrest]

theorem decodeLoop_of_fits (J : Json.Codec) (others : Nat → RaftNode → RaftNode) {fuel : Nat}
    {s : Conn} (h : Fits s.buf) (hfuel : s.buf.length < fuel) :
    decodeLoop J others fuel s ≠ .error .overrun ∧ decodeLoop J others fuel s ≠ .error .spins := by
  induction fuel generalizing s with
  | zero => omega
  | succ fuel ih =>
    rw [decodeLoop, decode_eq h.header]
    cases hread : frameAt s.buf with
    | more => simp
    | bad => exact absurd hread (frameAt_steady.good s.buf)
    | item req n =>
      obtain ⟨hpos, hle⟩ := frameAt_steady.inside hread
      have hrest : (s.buf.drop n).length < fuel := by
        rw [List.length_drop]
        omega
      dsimp only
      cases RaftRpcServer.dispatch J (others s.handled.length s.node) req with
      | none => simp
      | some out =>
        obtain ⟨node, resp⟩ := out
        dsimp only
        split
        · exact ih (s := Conn.mk _ _ _) ((fits_of_item hread).mp h).2 hrest
        · simp

/-- **`Decode` stays inside its buffer exactly where its length field fits**: the sum of nine
    and the field is less than `2^32`. And both receive loops go forward on a buffer, inside it,
    and stop, exactly if that is so for the header of each of its frames. -/
theorem decode_stays_iff (data : Bytes) :
    (Stays data ↔ HeaderFits data) ∧ (PeerLoop data ∧ ServerLoop data ↔ Fits data) := by
  refine ⟨stays_iff, ?_, ?_⟩
  · rintro ⟨hpeer, -⟩
    exact fits_of_fronts (Nat.lt_succ_self _) hpeer.1
  · intro hfits
    refine ⟨⟨fronts_of_fits hfits, ?_⟩, ?_⟩
    · rw [drain_of_fits hfits (Nat.lt_succ_self _)]
      rfl
    · intro J others s hs
      subst hs
      exact decodeLoop_of_fits J others hfits (Nat.lt_succ_self _)

/-- Nine bytes are enough: the field `2^32 - 1` makes the sum eight. -/
def nineBytes : Bytes := [1, 0, 0, 0, 0, 255, 255, 255, 255]

theorem decode_stays_fails : RpcFrame.decode nineBytes = .bad ∧ ¬ Stays nineBytes ∧
    ¬ ServerLoop nineBytes := by
  have hdecode : RpcFrame.decode nineBytes = .bad := by decide
  refine ⟨hdecode, ?_, ?_⟩
  · unfold Stays
    rw [hdecode]
    exact not_false
  · intro hserver
    refine (hserver Json.text (fun _ node => node) { node := {}, buf := nineBytes } rfl).1 ?_
    rw [decodeLoop, hdecode]

end Proof
end OrcDb
