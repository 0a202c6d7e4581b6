import Mathlib

/-!
# Checksummed frames

A stream of frames `[checksum 4][length 4][tag 1][payload]`, the two words little-endian.
A reader takes frames off the front until the stream ends, a frame is cut short or a checksum
does not match; what lies behind that point it never sees. The checksum is a parameter: that
written frames read back does not depend on which one it is.

The notion clients argue with is `Clean`: behind clean bytes reading starts afresh, so what
is appended to them is read as if it stood alone. Whole frames are clean; a torn one is not.
-/

set_option autoImplicit false

namespace OrcDb
namespace Lib

/-- The low 32 bits of `n`, little-endian. -/
def le32 (n : Nat) : List UInt8 :=
  [UInt8.ofNat n, UInt8.ofNat (n / 256), UInt8.ofNat (n / 65536), UInt8.ofNat (n / 16777216)]

def readLe32 : List UInt8 → Option (Nat × List UInt8)
  | b₀ :: b₁ :: b₂ :: b₃ :: rest =>
      some (b₀.toNat + 256 * b₁.toNat + 65536 * b₂.toNat + 16777216 * b₃.toNat, rest)
  | _ => none

theorem readLe32_le32 {n : Nat} (h : n < 2 ^ 32) (rest : List UInt8) :
    readLe32 (le32 n ++ rest) = some (n, rest) := by
  simp only [le32, List.cons_append, List.nil_append, readLe32, UInt8.toNat_ofNat']
  congr 2
  omega

theorem readLe32_length {bytes rest : List UInt8} {n : Nat}
    (h : readLe32 bytes = some (n, rest)) : bytes.length = rest.length + 4 := by
  unfold readLe32 at h
  split at h
  · cases h
    simp
  · exact absurd h (by simp)

theorem readLe32_of_length {bytes : List UInt8} (h : 4 ≤ bytes.length) :
    ∃ n, n < 2 ^ 32 ∧ readLe32 bytes = some (n, bytes.drop 4) := by
  rcases bytes with _ | ⟨b₀, _ | ⟨b₁, _ | ⟨b₂, _ | ⟨b₃, rest⟩⟩⟩⟩
  case cons.cons.cons.cons =>
    refine ⟨_, ?_, rfl⟩
    have h₀ := b₀.toNat_lt
    have h₁ := b₁.toNat_lt
    have h₂ := b₂.toNat_lt
    have h₃ := b₃.toNat_lt
    omega
  all_goals simp at h

structure Frame where
  tag : UInt8
  payload : List UInt8
deriving DecidableEq

section

variable (sum : List UInt8 → UInt32)

/-- The frame on disk. The checksum covers tag and payload. -/
def Frame.bytes (f : Frame) : List UInt8 :=
  le32 (sum (f.tag :: f.payload)).toNat ++ (le32 f.payload.length ++ f.tag :: f.payload)

/-- The frame at the front of the stream, and what is behind it. -/
def readFrame (bytes : List UInt8) : Option (Frame × List UInt8) := do
  let (crc, bytes) ← readLe32 bytes
  let (length, bytes) ← readLe32 bytes
  let tag :: bytes := bytes | none
  if bytes.length < length then none
  else if (sum (tag :: bytes.take length)).toNat ≠ crc then none
  else some (⟨tag, bytes.take length⟩, bytes.drop length)

/-- At most `fuel` frames off the front. -/
def readFrames : Nat → List UInt8 → List Frame
  | 0, _ => []
  | fuel + 1, bytes =>
      match readFrame sum bytes with
      | some (f, rest) => f :: readFrames fuel rest
      | none => []

/-- All frames up to the first one that does not read. -/
def frames (bytes : List UInt8) : List Frame := readFrames sum bytes.length bytes

end

variable {sum : List UInt8 → UInt32} {f : Frame} {bytes rest : List UInt8}

theorem Frame.length_bytes (f : Frame) : (f.bytes sum).length = 9 + f.payload.length := by
  simp [Frame.bytes, le32]
  omega

/-- **A written frame reads back**, whatever stands behind it. -/
theorem readFrame_bytes (h : f.payload.length < 2 ^ 32) (rest : List UInt8) :
    readFrame sum (f.bytes sum ++ rest) = some (f, rest) := by
  have hsum : (sum (f.tag :: f.payload)).toNat < 2 ^ 32 := UInt32.toNat_lt _
  simp [readFrame, Frame.bytes, List.append_assoc, readLe32_le32 hsum, readLe32_le32 h]

/-- A frame under another checksum does not read. -/
theorem readFrame_of_sum_ne {crc : UInt32} (hlen : f.payload.length < 2 ^ 32)
    (hsum : sum (f.tag :: f.payload) ≠ crc) (rest : List UInt8) :
    readFrame sum (le32 crc.toNat ++ (le32 f.payload.length ++ f.tag :: f.payload) ++ rest) =
      none := by
  have hcrc : crc.toNat < 2 ^ 32 := UInt32.toNat_lt _
  have hne : (sum (f.tag :: f.payload)).toNat ≠ crc.toNat := fun h => hsum (UInt32.toNat_inj.mp h)
  simp [readFrame, List.append_assoc, readLe32_le32 hcrc, readLe32_le32 hlen, hne]

/-- Reading goes forward. -/
theorem readFrame_length (h : readFrame sum bytes = some (f, rest)) :
    rest.length < bytes.length := by
  simp only [readFrame, Option.bind_eq_bind, Option.bind_eq_some_iff, Prod.exists] at h
  obtain ⟨crc, bytes₁, h₁, length, bytes₂, h₂, h⟩ := h
  have hlen₁ := readLe32_length h₁
  have hlen₂ := readLe32_length h₂
  cases bytes₂ with
  | nil => exact absurd h (by simp)
  | cons tag bytes₃ =>
    simp only [List.length_cons] at hlen₂
    dsimp only at h
    split at h
    · exact absurd h (by simp)
    · split at h
      · exact absurd h (by simp)
      · cases h
        rw [List.length_drop]
        omega

theorem readLe32_append {n : Nat} (h : readLe32 bytes = some (n, rest)) (more : List UInt8) :
    readLe32 (bytes ++ more) = some (n, rest ++ more) := by
  unfold readLe32 at h
  split at h
  · cases h
    rfl
  · exact absurd h (by simp)

/-- Reading is local: what stands further on does not change the frame. -/
theorem readFrame_append (h : readFrame sum bytes = some (f, rest)) (more : List UInt8) :
    readFrame sum (bytes ++ more) = some (f, rest ++ more) := by
  simp only [readFrame, Option.bind_eq_bind, Option.bind_eq_some_iff, Prod.exists] at h ⊢
  obtain ⟨crc, bytes₁, h₁, length, bytes₂, h₂, h⟩ := h
  refine ⟨crc, bytes₁ ++ more, readLe32_append h₁ more, length, bytes₂ ++ more,
    readLe32_append h₂ more, ?_⟩
  cases bytes₂ with
  | nil => exact absurd h (by simp)
  | cons tag bytes₃ =>
    dsimp only at h
    simp only [List.cons_append]
    split at h
    · exact absurd h (by simp)
    · rename_i hlong
      have hle : length ≤ bytes₃.length := Nat.le_of_not_lt hlong
      rw [if_neg (by rw [List.length_append]; omega), List.take_append_of_le_length hle,
        List.drop_append_of_le_length hle]
      split at h
      · exact absurd h (by simp)
      · rename_i hsum
        rw [if_neg hsum]
        cases h
        rfl

/-- Fuel beyond the length of the stream buys nothing. -/
theorem readFrames_fuel : ∀ {a b : Nat} {bytes : List UInt8}, bytes.length ≤ a →
    bytes.length ≤ b → readFrames sum a bytes = readFrames sum b bytes := by
  intro a
  induction a with
  | zero =>
    intro b bytes ha _
    rw [List.eq_nil_of_length_eq_zero (Nat.le_zero.mp ha)]
    cases b with
    | zero => rfl
    | succ b => rfl
  | succ a ih =>
    intro b bytes ha hb
    cases b with
    | zero =>
      rw [List.eq_nil_of_length_eq_zero (Nat.le_zero.mp hb)]
      rfl
    | succ b =>
      rw [readFrames, readFrames]
      cases hread : readFrame sum bytes with
      | none => rfl
      | some p =>
        have := readFrame_length hread
        show p.1 :: readFrames sum a p.2 = p.1 :: readFrames sum b p.2
        rw [@ih b p.2 (by omega) (by omega)]

theorem frames_of_none (h : readFrame sum bytes = none) : frames sum bytes = [] := by
  unfold frames
  cases bytes.length with
  | zero => rfl
  | succ k => simp [readFrames, h]

theorem frames_of_some (h : readFrame sum bytes = some (f, rest)) :
    frames sum bytes = f :: frames sum rest := by
  have hlt := readFrame_length h
  have hfuel : frames sum bytes = readFrames sum (rest.length + 1) bytes := by
    cases hlen : bytes.length with
    | zero => omega
    | succ k =>
      rw [frames, hlen, readFrames, readFrames, h]
      show f :: readFrames sum k rest = f :: readFrames sum rest.length rest
      rw [readFrames_fuel (by omega) (Nat.le_refl _)]
  rw [hfuel, readFrames, h]
  rfl

/-! ## Clean bytes -/

variable (sum) in
/-- Whatever is appended is read as if it stood alone. -/
def Clean (bytes : List UInt8) : Prop :=
  ∀ rest, frames sum (bytes ++ rest) = frames sum bytes ++ frames sum rest

theorem clean_nil : Clean sum [] := by
  intro rest
  rfl

theorem Clean.append {bytes' : List UInt8} (h : Clean sum bytes) (h' : Clean sum bytes') :
    Clean sum (bytes ++ bytes') := by
  intro rest
  rw [List.append_assoc, h, h', h, List.append_assoc]

theorem frames_bytes (h : f.payload.length < 2 ^ 32) : frames sum (f.bytes sum) = [f] := by
  have hread : readFrame sum (f.bytes sum ++ []) = some (f, []) := readFrame_bytes h []
  rw [List.append_nil] at hread
  rw [frames_of_some hread]
  rfl

/-- A whole frame is clean. -/
theorem clean_bytes (h : f.payload.length < 2 ^ 32) : Clean sum (f.bytes sum) := by
  intro rest
  rw [frames_of_some (readFrame_bytes h rest), frames_bytes h]
  rfl

/-- A frame cut short does not read. -/
theorem readFrame_take {cut : Nat} (h : f.payload.length < 2 ^ 32)
    (hcut : cut < (f.bytes sum).length) : readFrame sum ((f.bytes sum).take cut) = none := by
  cases hread : readFrame sum ((f.bytes sum).take cut) with
  | none => rfl
  | some p =>
    obtain ⟨f', rest⟩ := p
    -- with the missing bytes in place the same frame would be read, and leave them behind
    have hwhole := readFrame_append hread ((f.bytes sum).drop cut)
    have hread' : readFrame sum (f.bytes sum ++ []) = some (f, []) := readFrame_bytes h []
    rw [List.append_nil] at hread'
    rw [List.take_append_drop, hread'] at hwhole
    have hrest : rest ++ (f.bytes sum).drop cut = [] := by
      have := congrArg Prod.snd (Option.some.inj hwhole)
      exact this.symm
    have hlen := congrArg List.length (List.append_eq_nil_iff.mp hrest).2
    rw [List.length_drop, List.length_nil] at hlen
    omega

/-! ## Cutting a stream of frames -/

variable (sum) in
/-- The frames that lie wholly within the first `cut` bytes of the stream. -/
def framesWithin : Nat → List Frame → List Frame
  | _, [] => []
  | cut, f :: fs =>
      if (f.bytes sum).length ≤ cut then f :: framesWithin (cut - (f.bytes sum).length) fs
      else []

/-- **A cut stream reads as its whole frames**, also when something unreadable stands at its
    end: wherever the cut falls, the frame it falls into is not read. -/
theorem frames_take {fs : List Frame} (hfs : ∀ f ∈ fs, f.payload.length < 2 ^ 32)
    {torn : List UInt8} (htorn : ∀ k, frames sum (torn.take k) = []) (cut : Nat) :
    frames sum ((fs.flatMap (Frame.bytes sum) ++ torn).take cut) = framesWithin sum cut fs := by
  induction fs generalizing cut with
  | nil => exact htorn cut
  | cons f fs ih =>
    have hf := hfs f List.mem_cons_self
    rw [List.flatMap_cons, List.append_assoc, List.take_append, framesWithin]
    split
    · rename_i hle
      rw [List.take_of_length_le hle, frames_of_some (readFrame_bytes hf _),
        ih (fun g hg => hfs g (List.mem_cons_of_mem f hg))]
    · rename_i hgt
      have hlt : cut < (f.bytes sum).length := Nat.lt_of_not_le hgt
      rw [Nat.sub_eq_zero_of_le (Nat.le_of_lt hlt), List.take_zero, List.append_nil]
      exact frames_of_none (readFrame_take hf hlt)

end Lib
end OrcDb
