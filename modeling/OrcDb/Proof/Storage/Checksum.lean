import OrcDb.Storage.Wal
import OrcDb.Lib.Crc

/-!
# The checksum of a WAL record

`Crc32` looks eight steps of the register up in a table. `crc32_eq` unfolds the table: it is the
cyclic redundancy check of `Lib/Crc.lean` at 32 bits and `0xEDB88320`, over the bits of the message
from the lowest of each byte on. What is known of those in general then holds of it: the register
is the remainder of a polynomial division, and a change within 32 consecutive bits is seen. So
`Recover` stops at a record of which four consecutive bytes, or fewer, are not those that were
written (`recover_altered`).
-/

set_option autoImplicit false

namespace OrcDb
namespace Proof

open Lib Lib.Crc Polynomial

/-! ## The table -/

/-- The constant of `BuildCrc32Table`. -/
def crcWord : BitVec 32 := 0xEDB88320#32

/-- The register before the first byte, and what it is xored with behind the last. -/
def crcOnes : BitVec 32 := 0xFFFFFFFF#32

/-- The bits of a message, in the order in which they go into the register. -/
def messageBits (m : Bytes) : List Bool := m.flatMap fun b => lowBits 8 b.toBitVec

theorem messageBits_cons (b : UInt8) (m : Bytes) :
    messageBits (b :: m) = lowBits 8 b.toBitVec ++ messageBits m :=
  List.flatMap_cons

theorem crc32Shift_toBitVec (crc : UInt32) :
    (crc32Shift crc).toBitVec = Crc.feed crcWord crc.toBitVec false := by
  have hbit : crc &&& 1 ≠ 0 ↔ (crc.toBitVec.getLsbD 0 ^^ false) = true := by
    rw [ne_eq, ← UInt32.toBitVec_inj, UInt32.toBitVec_and, Bool.xor_false]
    show ¬crc.toBitVec &&& 1#32 = 0#32 ↔ _
    rw [BitVec.and_one_eq_setWidth_ofBool_getLsbD]
    cases crc.toBitVec.getLsbD 0 with
    | false => decide
    | true => decide
  unfold crc32Shift Crc.feed
  by_cases h : crc &&& 1 ≠ 0
  · rw [if_pos h, if_pos (hbit.mp h)]
    rfl
  · rw [if_neg h, if_neg (fun h' => h (hbit.mpr h'))]
    rfl

theorem crc32Table_toBitVec (i : UInt32) :
    (crc32Table i).toBitVec = (Crc.feed crcWord · false)^[8] i.toBitVec := by
  have hsemi : Function.Semiconj UInt32.toBitVec crc32Shift (Crc.feed crcWord · false) :=
    crc32Shift_toBitVec
  exact hsemi.iterate_right 8 i

theorem lowBits_and_0xFF (y : BitVec 32) : lowBits 8 (y &&& 0xFF#32) = lowBits 8 y := by
  have hmask : ∀ i < 8, (0xFF#32).getLsbD i = true := by decide
  apply List.map_congr_left
  intro i hi
  rw [BitVec.getLsbD_and, hmask i (List.mem_range.mp hi), Bool.and_true]

theorem shift_of_lt {y : BitVec 32} (h : y.toNat < 256) : y >>> 8 = 0#32 := by
  apply BitVec.eq_of_toNat_eq
  rw [BitVec.toNat_ushiftRight, Nat.shiftRight_eq_div_pow]
  exact Nat.div_eq_of_lt h

/-- One byte of the message through the table is its eight bits through the register. -/
theorem crc32_step (crc : UInt32) (b : UInt8) :
    (crc32Table ((crc ^^^ b.toUInt32) &&& 0xFF) ^^^ (crc >>> 8)).toBitVec =
      remainder crcWord crc.toBitVec (lowBits 8 b.toBitVec) := by
  have hbyte : (b.toBitVec.setWidth 32).toNat < 256 := by
    rw [BitVec.toNat_setWidth]
    exact lt_of_le_of_lt (Nat.mod_le _ _) b.toBitVec.isLt
  have hlow : lowBits 8 (b.toBitVec.setWidth 32) = lowBits 8 b.toBitVec := by
    apply List.map_congr_left
    intro i hi
    have := List.mem_range.mp hi
    rw [BitVec.getLsbD_setWidth, decide_eq_true (by omega), Bool.true_and]
  have hmasked : ((crc.toBitVec ^^^ b.toBitVec.setWidth 32) &&& 0xFF#32).toNat < 256 := by
    rw [BitVec.toNat_and]
    exact Nat.and_lt_two_pow _ (by decide : (0xFF#32).toNat < 2 ^ 8)
  -- the bits of the byte are added to the register, and the low ones of the sum are looked up
  have hfed := iterate_feed_xor 8 crcWord crc.toBitVec (b.toBitVec.setWidth 32)
  have hlooked := iterate_feed_low (P := crcWord)
    (lowBits_and_0xFF (crc.toBitVec ^^^ b.toBitVec.setWidth 32)) (shift_of_lt hmasked)
  rw [shift_of_lt hbyte, BitVec.xor_zero, hlow] at hfed
  rw [BitVec.ushiftRight_xor_distrib, shift_of_lt hbyte, BitVec.xor_zero] at hlooked
  rw [← hfed, hlooked, UInt32.toBitVec_xor, crc32Table_toBitVec]
  rfl

/-- **The function bit by bit.** -/
theorem crc32_eq (m : Bytes) :
    (crc32 m).toBitVec = remainder crcWord crcOnes (messageBits m) ^^^ crcOnes := by
  have hloop : ∀ (m : Bytes) (crc : UInt32),
      (m.foldl (fun crc b => crc32Table ((crc ^^^ b.toUInt32) &&& 0xFF) ^^^ (crc >>> 8))
        crc).toBitVec = remainder crcWord crc.toBitVec (messageBits m) := by
    intro m
    induction m with
    | nil =>
      intro crc
      rfl
    | cons b m ih =>
      intro crc
      rw [List.foldl_cons, ih, crc32_step, messageBits_cons, remainder_append]
  rw [crc32, UInt32.toBitVec_xor, hloop]
  rfl

theorem length_messageBits (m : Bytes) : (messageBits m).length = 8 * m.length := by
  induction m with
  | nil => rfl
  | cons b m ih =>
    rw [messageBits_cons, List.length_append, length_lowBits, ih, List.length_cons]
    omega

theorem messageBits_append (m m' : Bytes) :
    messageBits (m ++ m') = messageBits m ++ messageBits m' :=
  List.flatMap_append

theorem messageBits_injective : Function.Injective messageBits := by
  intro m m' h
  induction m generalizing m' with
  | nil =>
    have hlen := congrArg List.length h
    rw [length_messageBits, length_messageBits] at hlen
    exact (List.eq_nil_of_length_eq_zero (by simpa using hlen.symm)).symm
  | cons b m ih =>
    cases m' with
    | nil =>
      have hlen := congrArg List.length h
      rw [length_messageBits, length_messageBits] at hlen
      exact absurd hlen (by simp)
    | cons b' m' =>
      rw [messageBits_cons, messageBits_cons] at h
      obtain ⟨hb, hm⟩ := List.append_inj h (by rw [length_lowBits, length_lowBits])
      rw [UInt8.toBitVec_inj.mp (lowBits_injective hb), ih hm]

/-! ## Local changes -/

/-- The two messages are as long as each other and differ, but only within four consecutive
    bytes. -/
structure Altered (m m' : Bytes) : Prop where
  length : m.length = m'.length
  differ : m ≠ m'
  within : ∃ i, ∀ j, j < i ∨ i + 4 ≤ j → m[j]? = m'[j]?

variable {m m' : Bytes}

theorem Altered.split (h : Altered m m') : ∃ before a b after : Bytes,
    m = before ++ (a ++ after) ∧ m' = before ++ (b ++ after) ∧
      a.length = b.length ∧ a.length ≤ 4 ∧ a ≠ b := by
  obtain ⟨i, hi⟩ := h.within
  have hbefore : m.take i = m'.take i := by
    apply List.ext_getElem?
    intro j
    rw [List.getElem?_take, List.getElem?_take]
    split
    · rename_i hj
      exact hi j (.inl hj)
    · rfl
  have hafter : m.drop (i + 4) = m'.drop (i + 4) := by
    apply List.ext_getElem?
    intro j
    rw [List.getElem?_drop, List.getElem?_drop]
    exact hi _ (.inr (Nat.le_add_right _ _))
  have hsplit : ∀ l : Bytes, l = l.take i ++ ((l.drop i).take 4 ++ l.drop (i + 4)) := by
    intro l
    rw [← List.drop_drop, List.take_append_drop, List.take_append_drop]
  refine ⟨m.take i, (m.drop i).take 4, (m'.drop i).take 4, m.drop (i + 4), hsplit m, ?_, ?_, ?_, ?_⟩
  · rw [hbefore, hafter]
    exact hsplit m'
  · rw [List.length_take, List.length_take, List.length_drop, List.length_drop, h.length]
  · rw [List.length_take]
    omega
  · intro hsame
    apply h.differ
    rw [hsplit m, hsplit m', hbefore, hafter, hsame]

theorem crc32_ne (h : Altered m m') : crc32 m ≠ crc32 m' := by
  obtain ⟨before, a, b, after, rfl, rfl, hlen, hfour, hne⟩ := h.split
  intro heq
  have hbits := congrArg UInt32.toBitVec heq
  rw [crc32_eq, crc32_eq, BitVec.xor_left_inj] at hbits
  simp only [messageBits_append] at hbits
  refine remainder_ne_of_burst (by decide) ?_ ?_ ?_ hbits
  · rw [length_messageBits, length_messageBits, hlen]
  · rw [length_messageBits]
    omega
  · exact fun hsame => hne (messageBits_injective hsame)

/-! ## Altered records -/

/-- The bytes of a record with `body` in the place of its type and payload. -/
def alteredRecord (f : Frame) (body : Bytes) : Bytes :=
  le32 (crc32 (f.tag :: f.payload)).toNat ++ (le32 f.payload.length ++ body)

theorem readFrame_altered {f : Frame} {body : Bytes} (hlen : f.payload.length < 2 ^ 32)
    (h : Altered (f.tag :: f.payload) body) (after : Bytes) :
    readFrame crc32 (alteredRecord f body ++ after) = none := by
  have hbody := h.length
  cases body with
  | nil => exact absurd hbody (by simp)
  | cons tag payload =>
    rw [List.length_cons, List.length_cons, Nat.add_right_cancel_iff] at hbody
    rw [alteredRecord, hbody]
    rw [hbody] at hlen
    exact readFrame_of_sum_ne (f := ⟨tag, payload⟩) hlen (Ne.symm (crc32_ne h)) after

/-- Segments that read alike can stand for each other. -/
theorem recover_congr {J : Json.Codec} {w : WriteAheadLog} {closed later : List (Nat × Bytes)}
    {seg : Nat} {content content' : Bytes}
    (h : frames crc32 content = frames crc32 content') :
    WriteAheadLog.recover J { w with files := closed ++ (seg, content) :: later } =
      WriteAheadLog.recover J { w with files := closed ++ (seg, content') :: later } := by
  have hnumbers : (closed ++ (seg, content) :: later).map Prod.fst =
      (closed ++ (seg, content') :: later).map Prod.fst := by
    simp
  unfold WriteAheadLog.recover
  rw [hnumbers]
  congr 1
  funext r n
  rw [List.lookup_append, List.lookup_append, List.lookup_cons, List.lookup_cons]
  cases closed.lookup n with
  | some c => rfl
  | none =>
    cases n == seg with
    | false => rfl
    | true => simp [WriteAheadLog.readSegment, h]

/-- **`Recover` does not replay an altered record**: what it returns is what it would without the
    record and all that is behind it in the segment. -/
theorem recover_altered {J : Json.Codec} {w : WriteAheadLog} {closed later : List (Nat × Bytes)}
    {seg : Nat} {before after body : Bytes} {f : Frame} (hclean : Clean crc32 before)
    (hlen : f.payload.length < 2 ^ 32) (h : Altered (f.tag :: f.payload) body) :
    WriteAheadLog.recover J { w with
        files := closed ++ (seg, before ++ (alteredRecord f body ++ after)) :: later } =
      WriteAheadLog.recover J { w with files := closed ++ (seg, before) :: later } := by
  apply recover_congr
  rw [hclean, frames_of_none (readFrame_altered hlen h after), List.append_nil]

/-- **CRC-32 sees every local corruption.** It is the bit by bit division by `0xEDB88320`, which
    leaves the remainder by the polynomial of that word; messages that differ within four
    consecutive bytes have different sums; and a record changed within four consecutive bytes of
    its type and payload does not read, wherever it is, so that `Recover` goes on as if the
    segment ended in front of it. -/
theorem crc32_local :
    (∀ m, (crc32 m).toBitVec = remainder crcWord crcOnes (messageBits m) ^^^ crcOnes) ∧
    (∀ m, poly (remainder crcWord crcOnes (messageBits m)) =
      (X ^ (8 * m.length) * poly crcOnes + X ^ 32 * message (messageBits m)) %ₘ
        generator crcWord) ∧
    (∀ m m', Altered m m' → crc32 m ≠ crc32 m') ∧
    ∀ (J : Json.Codec) (w : WriteAheadLog) (closed later : List (Nat × Bytes)) (seg : Nat)
      (before after body : Bytes) (f : Frame), f.payload.length < 2 ^ 32 →
      Altered (f.tag :: f.payload) body →
        readFrame crc32 (alteredRecord f body ++ after) = none ∧
        (Clean crc32 before →
          WriteAheadLog.recover J { w with
              files := closed ++ (seg, before ++ (alteredRecord f body ++ after)) :: later } =
            WriteAheadLog.recover J { w with files := closed ++ (seg, before) :: later }) := by
  refine ⟨crc32_eq, ?_, fun m m' h => crc32_ne h, ?_⟩
  · intro m
    rw [poly_remainder, length_messageBits]
  · intro J w closed later seg before after body f hlen h
    exact ⟨readFrame_altered hlen h after, fun hclean => recover_altered hclean hlen h⟩

/-- One bit of the second byte. -/
theorem crc32_local_bit : Altered [1, 2] [1, 3] ∧ crc32 [1, 2] ≠ crc32 [1, 3] := by
  have haltered : Altered [1, 2] [1, 3] := by
    refine ⟨rfl, by decide, 1, ?_⟩
    rintro (_ | _ | _ | j) hj
    · rfl
    · omega
    · rfl
    · rfl
  exact ⟨haltered, crc32_local.2.2.1 _ _ haltered⟩

end Proof
end OrcDb
