import Mathlib

/-!
# Cyclic redundancy checks

A register of `w` bits takes a message bit by bit: it shifts to the right, and if the bit that
falls out and the bit that comes in differ, a fixed word `P` is added. Read from its most
significant bit, the register is a polynomial over `ZMod 2` (`poly`), and the step multiplies it by
`X` modulo `generator P`, which is `X ^ w` and the polynomial of `P`.

So the register ends up with the remainder of the message (`poly_remainder`), and what that is good
for is `remainder_ne_of_burst`: two messages that differ within `w` bits, wherever these are, have
different remainders. The difference is a power of `X` times a polynomial of degree less than `w`,
and the generator divides no such thing.
-/

set_option autoImplicit false

namespace OrcDb
namespace Lib
namespace Crc

open Polynomial

variable {w : Nat} {P r x : BitVec w} {b : Bool} {bits : List Bool}

/-- One bit of a message. -/
def feed (P r : BitVec w) (b : Bool) : BitVec w :=
  if r.getLsbD 0 ^^ b then P ^^^ (r >>> 1) else r >>> 1

/-- The bits of a message, one after the other. -/
def remainder (P r : BitVec w) (bits : List Bool) : BitVec w := bits.foldl (feed P) r

@[simp] theorem remainder_nil : remainder P r [] = r := rfl

@[simp] theorem remainder_cons : remainder P r (b :: bits) = remainder P (feed P r b) bits := rfl

theorem remainder_append (bits bits' : List Bool) :
    remainder P r (bits ++ bits') = remainder P (remainder P r bits) bits' :=
  List.foldl_append

/-! ## The polynomials -/

def bit (b : Bool) : ZMod 2 := if b then 1 else 0

theorem bit_xor : ∀ a b, bit (a ^^ b) = bit a + bit b := by decide

theorem bit_injective : Function.Injective bit := by decide

theorem bit_add_self : ∀ b, bit b + bit b = 0 := by decide

/-- The register as a polynomial: the most significant bit is the constant coefficient. -/
noncomputable def poly (r : BitVec w) : (ZMod 2)[X] := Polynomial.ofFn w fun i => bit (r.getMsbD i)

/-- What the remainders are taken by. -/
noncomputable def generator (P : BitVec w) : (ZMod 2)[X] := X ^ w + poly P

/-- A message as a polynomial: the first bit is the highest coefficient. -/
noncomputable def message : List Bool → (ZMod 2)[X]
  | [] => 0
  | b :: bits => C (bit b) * X ^ bits.length + message bits

theorem coeff_poly (r : BitVec w) (i : Nat) : (poly r).coeff i = bit (r.getMsbD i) := by
  rcases Nat.lt_or_ge i w with h | h
  · exact Polynomial.ofFn_coeff_eq_val_of_lt _ h
  · rw [BitVec.getMsbD_of_ge r i h]
    exact Polynomial.ofFn_coeff_eq_zero_of_ge _ h

theorem degree_poly (r : BitVec w) : (poly r).degree < w := Polynomial.ofFn_degree_lt _

theorem poly_xor (r x : BitVec w) : poly (r ^^^ x) = poly r + poly x := by
  ext i
  rw [Polynomial.coeff_add, coeff_poly, coeff_poly, coeff_poly, BitVec.getMsbD_xor, bit_xor]

theorem monic_generator (P : BitVec w) : (generator P).Monic :=
  Polynomial.monic_X_pow_add (degree_poly P)

theorem degree_generator (P : BitVec w) : (generator P).degree = w := by
  rw [generator, Polynomial.degree_add_eq_left_of_degree_lt, Polynomial.degree_X_pow]
  rw [Polynomial.degree_X_pow]
  exact degree_poly P

/-- A shift multiplies by `X`, but for the coefficient that falls out. -/
theorem poly_shift (r : BitVec w) :
    poly (r >>> 1) = X * poly r + C (bit (r.getLsbD 0)) * X ^ w := by
  ext i
  rw [Polynomial.coeff_add, Polynomial.coeff_C_mul_X_pow, coeff_poly, BitVec.getMsbD_ushiftRight]
  cases i with
  | zero =>
    cases w with
    | zero => simp [bit]
    | succ w => simp [bit]
  | succ i =>
    rw [Polynomial.coeff_X_mul, coeff_poly]
    rcases Nat.lt_trichotomy (i + 1) w with h | h | h
    · simp [h, Nat.ne_of_lt h]
    · subst h
      have hlast : r.getMsbD i = r.getLsbD 0 := by simp [BitVec.getMsbD]
      rw [hlast, if_pos rfl, bit_add_self]
      simp [bit]
    · have hover : r.getMsbD i = false := BitVec.getMsbD_of_ge r i (by omega)
      rw [hover, if_neg (by omega), add_zero]
      simp [Nat.not_lt_of_gt h]

/-- **One bit**: the register is multiplied by `X`, the bit is added above its highest coefficient,
    and the result is reduced. -/
theorem poly_feed (P r : BitVec w) (b : Bool) :
    poly (feed P r b) = X * poly r + C (bit b) * X ^ w +
      C (bit (r.getLsbD 0 ^^ b)) * generator P := by
  have hstep : poly (feed P r b) = poly (r >>> 1) + C (bit (r.getLsbD 0 ^^ b)) * poly P := by
    unfold feed
    cases r.getLsbD 0 ^^ b with
    | false => simp [bit]
    | true => simp [bit, poly_xor, add_comm]
  have htwice : C (bit b) * X ^ w + C (bit b) * X ^ w = 0 := by
    rw [← add_mul, ← C_add, bit_add_self, C_0, zero_mul]
  rw [hstep, poly_shift, generator, bit_xor, C_add]
  linear_combination -htwice

theorem dvd_remainder (P r : BitVec w) (bits : List Bool) : generator P ∣
    poly (remainder P r bits) - (X ^ bits.length * poly r + X ^ w * message bits) := by
  induction bits generalizing r with
  | nil => simp [message]
  | cons b bits ih =>
    obtain ⟨q, hq⟩ := ih (feed P r b)
    refine ⟨q + X ^ bits.length * C (bit (r.getLsbD 0 ^^ b)), ?_⟩
    rw [remainder_cons, message, List.length_cons]
    rw [poly_feed] at hq
    linear_combination hq

/-- **The register holds the remainder** of the message behind its initial value. -/
theorem poly_remainder (P r : BitVec w) (bits : List Bool) :
    poly (remainder P r bits) =
      (X ^ bits.length * poly r + X ^ w * message bits) %ₘ generator P := by
  have hself : poly (remainder P r bits) %ₘ generator P = poly (remainder P r bits) := by
    rw [Polynomial.modByMonic_eq_self_iff (monic_generator P), degree_generator]
    exact degree_poly _
  rw [← hself]
  exact Polynomial.modByMonic_eq_of_dvd_sub (monic_generator P) (dvd_remainder P r bits)

/-! ## Bursts -/

theorem degree_message (bits : List Bool) : (message bits).degree < bits.length := by
  induction bits with
  | nil => simp [message]
  | cons b bits ih =>
    rw [message, List.length_cons]
    apply lt_of_le_of_lt (Polynomial.degree_add_le _ _)
    rw [max_lt_iff]
    constructor
    · apply lt_of_le_of_lt (Polynomial.degree_C_mul_X_pow_le _ _)
      exact_mod_cast Nat.lt_succ_self _
    · apply lt_trans ih
      exact_mod_cast Nat.lt_succ_self _

theorem message_append (bits bits' : List Bool) :
    message (bits ++ bits') = X ^ bits'.length * message bits + message bits' := by
  induction bits with
  | nil => simp [message]
  | cons b bits ih =>
    rw [List.cons_append, message, message, ih, List.length_append, pow_add]
    ring

theorem message_inj {bits bits' : List Bool} (hlen : bits.length = bits'.length)
    (h : message bits = message bits') : bits = bits' := by
  induction bits generalizing bits' with
  | nil =>
    cases bits' with
    | nil => rfl
    | cons b' bits' => exact absurd hlen (by simp)
  | cons b bits ih =>
    cases bits' with
    | nil => exact absurd hlen (by simp)
    | cons b' bits' =>
      rw [List.length_cons, List.length_cons, Nat.add_right_cancel_iff] at hlen
      rw [message, message, hlen] at h
      -- the highest coefficients, and then the rest
      have htop : b = b' := by
        have hcoeff := congrArg (fun p => p.coeff bits'.length) h
        have hbits := Polynomial.coeff_eq_zero_of_degree_lt (degree_message bits)
        have hbits' := Polynomial.coeff_eq_zero_of_degree_lt (degree_message bits')
        rw [hlen] at hbits
        apply bit_injective
        simpa [hbits, hbits'] using hcoeff
      subst htop
      rw [ih hlen (add_left_cancel h)]

/-- The generator has no factor `X` if `P` has its highest bit. -/
theorem isCoprime_X_generator (hP : P.getMsbD 0 = true) :
    IsCoprime (X : (ZMod 2)[X]) (generator P) := by
  have hw : w ≠ 0 := by
    rintro rfl
    exact absurd hP (by simp)
  rw [Polynomial.prime_X.irreducible.coprime_iff_not_dvd, Polynomial.X_dvd_iff, generator,
    Polynomial.coeff_add, coeff_poly, hP, Polynomial.coeff_X_pow, if_neg (Ne.symm hw)]
  simp [bit]

/-- **Bursts are seen**: messages that differ only within `w` bits have different remainders. -/
theorem remainder_ne_of_burst (hP : P.getMsbD 0 = true) {before a b after : List Bool}
    (hlen : a.length = b.length) (hw : a.length ≤ w) (hne : a ≠ b) :
    remainder P r (before ++ (a ++ after)) ≠ remainder P r (before ++ (b ++ after)) := by
  intro heq
  rw [remainder_append before, remainder_append before] at heq
  generalize remainder P r before = r' at heq
  apply hne
  apply message_inj hlen
  -- the difference is divisible by the generator
  have hdvd : generator P ∣ X ^ (w + after.length) * (message a - message b) := by
    have ha := dvd_remainder P r' (a ++ after)
    have hb := dvd_remainder P r' (b ++ after)
    rw [heq] at ha
    have hab := dvd_sub hb ha
    rw [message_append, message_append, List.length_append, List.length_append, hlen] at hab
    rw [pow_add]
    convert hab using 1
    ring
  have hsmall : (message a - message b).degree < (generator P).degree := by
    rw [degree_generator]
    apply lt_of_le_of_lt (Polynomial.degree_sub_le _ _)
    rw [max_lt_iff]
    constructor
    · exact lt_of_lt_of_le (degree_message a) (by exact_mod_cast hw)
    · exact lt_of_lt_of_le (degree_message b) (by exact_mod_cast hlen ▸ hw)
  have hzero := Polynomial.eq_zero_of_dvd_of_degree_lt
    ((isCoprime_X_generator hP).pow_left.symm.dvd_of_dvd_mul_left hdvd) hsmall
  exact sub_eq_zero.mp hzero

/-! ## Words -/

/-- The `n` low bits of a word, the lowest first. -/
def lowBits (n : Nat) (x : BitVec w) : List Bool := (List.range n).map x.getLsbD

theorem lowBits_succ (n : Nat) (x : BitVec w) :
    lowBits (n + 1) x = x.getLsbD 0 :: lowBits n (x >>> 1) := by
  rw [lowBits, List.range_succ_eq_map, List.map_cons, List.map_map]
  congr 1
  apply List.map_congr_left
  intro i _
  rw [BitVec.getLsbD_ushiftRight, Function.comp_apply, Nat.succ_eq_one_add]

theorem length_lowBits (n : Nat) (x : BitVec w) : (lowBits n x).length = n := by simp [lowBits]

theorem lowBits_injective : Function.Injective (lowBits (w := w) w) := by
  intro x y h
  apply BitVec.eq_of_getLsbD_eq
  intro i hi
  have hget := congrArg (fun l : List Bool => l[i]?) h
  simpa [lowBits, hi] using hget

/-- What is in the register already and what comes in are added. -/
theorem feed_xor (P r x : BitVec w) :
    feed P (r ^^^ x) false = feed P r (x.getLsbD 0) ^^^ (x >>> 1) := by
  unfold feed
  rw [BitVec.getLsbD_xor, Bool.xor_false, BitVec.ushiftRight_xor_distrib]
  split
  · rw [BitVec.xor_assoc]
  · rfl

/-- A word that is added to the register is a message of `n` bits, and what is left of it. -/
theorem iterate_feed_xor (n : Nat) (P r x : BitVec w) :
    (feed P · false)^[n] (r ^^^ x) = remainder P r (lowBits n x) ^^^ (x >>> n) := by
  induction n generalizing r x with
  | zero => simp [lowBits]
  | succ n ih =>
    rw [Function.iterate_succ_apply, feed_xor, ih, lowBits_succ, remainder_cons,
      ← BitVec.shiftRight_add, Nat.add_comm 1 n]

/-- The step of a table: the low bits are looked up, the others only shifted. -/
theorem iterate_feed_low {n : Nat} {P x low : BitVec w} (hlow : lowBits n low = lowBits n x)
    (hnone : low >>> n = 0#w) :
    (feed P · false)^[n] x = (feed P · false)^[n] low ^^^ (x >>> n) := by
  have hx := iterate_feed_xor n P 0#w x
  have hl := iterate_feed_xor n P 0#w low
  rw [BitVec.zero_xor] at hx hl
  rw [hx, hl, hlow, hnone, BitVec.xor_zero]

end Crc
end Lib
end OrcDb
