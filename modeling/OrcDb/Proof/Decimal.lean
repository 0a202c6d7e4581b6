import OrcDb.Bytes

/-!
# Decimal numerals

`std::stoull` reads back what `snprintf` and `std::to_string` print. The numerals it reads without
a doubt are those of `Decimal`: digits and nothing else, zeros in front allowed. A length header
has one by its grammar, the name of a WAL segment because `SegmentPath` put it there.
-/

set_option autoImplicit false

namespace OrcDb
namespace Proof

/-- `v` is a decimal numeral of `n`; leading zeros are allowed. -/
structure Decimal (v : Bytes) (n : Nat) : Prop where
  nonempty : v ≠ []
  digits : ∀ c ∈ v, isDigit c = true
  value : decimalValue v = n

theorem isDigit_iff {c : UInt8} : isDigit c = true ↔ 48 ≤ c.toNat ∧ c.toNat ≤ 57 := by
  simp [isDigit, UInt8.le_iff_toNat_le]

theorem isSpace_iff {c : UInt8} :
    isSpace c = true ↔ c.toNat = 32 ∨ 9 ≤ c.toNat ∧ c.toNat ≤ 13 := by
  simp [isSpace, UInt8.le_iff_toNat_le, ← UInt8.toNat_inj]

theorem isSpace_of_isDigit {c : UInt8} (h : isDigit c = true) : isSpace c = false := by
  rw [isDigit_iff] at h
  rw [Bool.eq_false_iff, ne_eq, isSpace_iff]
  omega

theorem not_sign_of_isDigit {c : UInt8} (h : isDigit c = true) : c ≠ 45 ∧ c ≠ 43 := by
  constructor
  · rintro rfl
    exact absurd h (by decide)
  · rintro rfl
    exact absurd h (by decide)

/-- `std::stoull` reads a plain numeral, whatever follows it. -/
theorem stoull_decimal {v s : Bytes} {n : Nat} (h : Decimal v n)
    (hs : ∀ c ∈ s, isDigit c = false) (hn : n < 2 ^ 64) : stoull (v ++ s) = some n := by
  obtain ⟨hne, hdigits, hvalue⟩ := h
  have htake : (v ++ s).takeWhile isDigit = v := by
    rw [List.takeWhile_append_of_pos hdigits]
    cases s with
    | nil => exact List.append_nil v
    | cons d s =>
      rw [List.takeWhile_cons_of_neg (by simp [hs d List.mem_cons_self]), List.append_nil]
  cases v with
  | nil => exact absurd rfl hne
  | cons c v =>
    have hc := hdigits c List.mem_cons_self
    obtain ⟨hminus, hplus⟩ := not_sign_of_isDigit hc
    have hstart : (c :: v ++ s).dropWhile isSpace = c :: v ++ s := by
      rw [List.cons_append, List.dropWhile_cons_of_neg]
      simp [isSpace_of_isDigit hc]
    unfold stoull
    rw [hstart]
    simp only [List.cons_append, List.head?_cons, Option.some.injEq, hminus, hplus, decide_false,
      Bool.or_self, Bool.false_eq_true, if_false]
    rw [← List.cons_append, htake]
    simp only [List.isEmpty_cons, Bool.false_or, decide_eq_true_eq]
    rw [hvalue, if_neg (by omega)]

theorem stoull_of_decimal {v : Bytes} {n : Nat} (h : Decimal v n) (hn : n < 2 ^ 64) :
    stoull v = some n := by
  have := stoull_decimal (s := []) h (by simp) hn
  rwa [List.append_nil] at this

/-! ## Printing -/

/-- The code of a digit is a byte, and that byte is a digit. -/
theorem digit_byte {c : Char} (h : c.isDigit = true) :
    (UInt8.ofNat c.toNat).toNat = c.toNat ∧ isDigit (UInt8.ofNat c.toNat) = true := by
  have hrange : 48 ≤ c.toNat ∧ c.toNat ≤ 57 := by
    simpa [Char.isDigit, UInt32.le_iff_toNat_le] using h
  have hbyte : (UInt8.ofNat c.toNat).toNat = c.toNat := by
    rw [UInt8.toNat_ofNat', Nat.mod_eq_of_lt (by omega)]
  exact ⟨hbyte, isDigit_iff.mpr (by omega)⟩

theorem utf8EncodeChar_digit {c : Char} (h : c.isDigit = true) :
    String.utf8EncodeChar c = [UInt8.ofNat c.toNat] := by
  obtain ⟨hbyte, hdigit⟩ := digit_byte h
  have hchar := utf8EncodeChar_ofNat (Nat.lt_of_le_of_lt (isDigit_iff.mp hdigit).2 (by omega))
  rwa [hbyte, Char.ofNat_toNat] at hchar

theorem isDigit_of_mem_decimal {n : Nat} {c : Char} (h : c ∈ Nat.toDigits 10 n) :
    c.isDigit = true := Nat.isDigit_of_mem_toDigits (by omega) (by omega) h

theorem toBytes_toString (n : Nat) :
    toBytes (toString n) = (Nat.toDigits 10 n).map fun c => UInt8.ofNat c.toNat := by
  have htext : toString n = String.ofList (Nat.toDigits 10 n) := rfl
  have hbytes : ∀ c ∈ Nat.toDigits 10 n, String.utf8EncodeChar c = [UInt8.ofNat c.toNat] :=
    fun c hc => utf8EncodeChar_digit (isDigit_of_mem_decimal hc)
  rw [htext, toBytes_ofList, List.flatMap_congr hbytes, List.map_eq_flatMap]

theorem decimalValue_bytes {cs : List Char} (hcs : ∀ c ∈ cs, c.isDigit = true) :
    decimalValue (cs.map fun c => UInt8.ofNat c.toNat) = Nat.ofDigitChars 10 cs 0 := by
  have key : ∀ start, (cs.map fun c => UInt8.ofNat c.toNat).foldl
      (fun n d => 10 * n + (d.toNat - 48)) start = Nat.ofDigitChars 10 cs start := by
    induction cs with
    | nil => exact fun _ => rfl
    | cons c cs ih =>
      intro start
      rw [List.map_cons, List.foldl_cons, (digit_byte (hcs c List.mem_cons_self)).1,
        ih fun d hd => hcs d (List.mem_cons_of_mem _ hd)]
      rfl
  exact key 0

/-- What a number is printed as is a numeral of it. -/
theorem decimal_toString (n : Nat) : Decimal (toBytes (toString n)) n := by
  rw [toBytes_toString]
  refine ⟨by simp [Nat.toDigits_ne_nil], ?_, ?_⟩
  · intro b hb
    obtain ⟨c, hc, rfl⟩ := List.mem_map.mp hb
    exact (digit_byte (isDigit_of_mem_decimal hc)).2
  · rw [decimalValue_bytes fun c hc => isDigit_of_mem_decimal hc,
      Nat.ofDigitChars_toDigits (by omega) (by omega)]

/-- Zeros in front change nothing. -/
theorem Decimal.pad {v : Bytes} {n : Nat} (h : Decimal v n) (k : Nat) :
    Decimal (List.replicate k 48 ++ v) n where
  nonempty := fun hnil => h.nonempty (List.append_eq_nil_iff.mp hnil).2
  digits := by
    intro c hc
    rcases List.mem_append.mp hc with hc | hc
    · rw [List.eq_of_mem_replicate hc]
      rfl
    · exact h.digits c hc
  value := by
    have hzeros : ∀ k, (List.replicate k (48 : UInt8)).foldl
        (fun n d => 10 * n + (d.toNat - 48)) 0 = 0 := by
      intro k
      induction k with
      | zero => rfl
      | succ k ih => exact ih
    rw [decimalValue, List.foldl_append, hzeros]
    exact h.value

end Proof
end OrcDb
