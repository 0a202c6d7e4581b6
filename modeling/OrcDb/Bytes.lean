import Mathlib

/-!
# Bytes and texts

A `std::string` is a string of bytes. Where the code only moves text about the model uses
`String`; where it scans bytes — the WAL's frames, the HTTP parser — it uses `Bytes`. The
functions of the C and C++ libraries the scanners call on single characters and on numerals
are here, in the "C" locale the program runs in.
-/

set_option autoImplicit false

namespace OrcDb

abbrev Bytes := List UInt8

/-- The bytes of a text, and back; `json::parse` throws on bytes that are not UTF-8. -/
def toBytes (s : String) : List UInt8 := s.toByteArray.data.toList

def ofBytes? (bytes : List UInt8) : Option String := String.fromUTF8? ⟨bytes.toArray⟩

theorem ofBytes?_toBytes (s : String) : ofBytes? (toBytes s) = some s := by
  unfold ofBytes? toBytes
  rw [Array.toArray_toList]
  unfold String.fromUTF8?
  rw [dif_pos s.isValidUTF8]
  rfl

theorem toBytes_ofList (cs : List Char) :
    toBytes (String.ofList cs) = cs.flatMap String.utf8EncodeChar := by
  unfold toBytes
  rw [String.toByteArray_ofList, List.utf8Encode, List.data_toByteArray]

theorem utf8EncodeChar_ofNat {b : UInt8} (h : b.toNat < 128) :
    String.utf8EncodeChar (Char.ofNat b.toNat) = [b] := by
  have hval : (Char.ofNat b.toNat).toNat = b.toNat :=
    (Char.toNat_ofNat _).trans (if_pos (Or.inl (by omega)))
  have hsize : (Char.ofNat b.toNat).utf8Size = 1 := by
    rw [Char.utf8Size_eq_one_iff, UInt32.le_iff_toNat_le]
    change (Char.ofNat b.toNat).toNat ≤ 127
    omega
  rw [String.utf8EncodeChar_eq_singleton hsize]
  congr 1
  apply UInt8.toNat_inj.mp
  rw [UInt32.toNat_toUInt8]
  change (Char.ofNat b.toNat).toNat % 256 = _
  omega

/-- ASCII is UTF-8. -/
theorem exists_toBytes {bytes : Bytes} (h : ∀ b ∈ bytes, b.toNat < 128) :
    ∃ s, toBytes s = bytes := by
  refine ⟨String.ofList (bytes.map fun b => Char.ofNat b.toNat), ?_⟩
  rw [toBytes_ofList, List.flatMap_map]
  induction bytes with
  | nil => rfl
  | cons b bytes ih =>
    rw [List.forall_mem_cons] at h
    rw [List.flatMap_cons, utf8EncodeChar_ofNat h.1, ih h.2]
    rfl

/-- An integer as an `int64_t` holds it, such as the count of nanoseconds in a
    `system_clock::time_point`. -/
def wrapInt64 (x : Int) : Int := x.bmod (2 ^ 64)

theorem wrapInt64_bounds (x : Int) : -2 ^ 63 ≤ wrapInt64 x ∧ wrapInt64 x < 2 ^ 63 := by
  unfold wrapInt64 Int.bmod
  dsimp only
  split
  · omega
  · omega

theorem wrapInt64_eq_self_iff {x : Int} : wrapInt64 x = x ↔ -2 ^ 63 ≤ x ∧ x < 2 ^ 63 := by
  unfold wrapInt64 Int.bmod
  dsimp only
  split
  · omega
  · omega

theorem wrapInt64_le {x : Int} (h : 0 ≤ x) : wrapInt64 x ≤ x := by
  unfold wrapInt64 Int.bmod
  dsimp only
  split
  · omega
  · omega

/-- `std::isspace`: space, and tab to carriage return. -/
def isSpace (c : UInt8) : Bool := c = 32 || (9 ≤ c && c ≤ 13)

/-- `std::isdigit`. -/
def isDigit (c : UInt8) : Bool := 48 ≤ c && c ≤ 57

/-- `std::tolower`. -/
def toLower (c : UInt8) : UInt8 := if 65 ≤ c && c ≤ 90 then c + 32 else c

/-- The number a string of decimal digits stands for. -/
def decimalValue (digits : Bytes) : Nat := digits.foldl (fun n d => 10 * n + (d.toNat - 48)) 0

/-- `std::stoull`: blanks and a sign may precede the digits, anything may follow them. It
    throws when there is no digit or the digits make 2^64 or more; a negative number wraps. -/
def stoull (s : Bytes) : Option Nat :=
  let s := s.dropWhile isSpace
  let unsigned := if s.head? = some 45 || s.head? = some 43 then s.tail else s
  let digits := unsigned.takeWhile isDigit
  let n := decimalValue digits
  if digits.isEmpty || 2 ^ 64 ≤ n then none
  else some (if s.head? = some 45 then (2 ^ 64 - n) % 2 ^ 64 else n)

/-- The signed kin of `std::stoull`, for a type of `bits` bits and a sign: it throws when there is
    no digit, or on a number that the type cannot hold. -/
def stoSigned (bits : Nat) (s : Bytes) : Option Int :=
  let s := s.dropWhile isSpace
  let unsigned := if s.head? = some 45 || s.head? = some 43 then s.tail else s
  let digits := unsigned.takeWhile isDigit
  let n : Int := if s.head? = some 45 then -decimalValue digits else decimalValue digits
  if digits.isEmpty || n < -2 ^ bits || 2 ^ bits ≤ n then none else some n

/-- `std::stoi`. -/
def stoi (s : Bytes) : Option Int := stoSigned 31 s

/-- `std::stoll`. -/
def stoll (s : Bytes) : Option Int := stoSigned 63 s

end OrcDb
